/-
The repair of names (`rename_actors` of `audit/store.rs`, `managed/repair.rs`). No pass changes
what a row is `restored` to.
-/
import SovereignConfig.Audit.Naming
import SovereignConfig.Managed.Connection

namespace SovereignConfig.Audit

open Lib Text List

/-! ## One pass -/

def rename_for (names : List ActorRename) (row : StoredEvent) : Option ActorRename :=
  names.find? fun rename => rename.concerns row && row.names_actor

def StoredEvent.repaired (self : StoredEvent) (names : List ActorRename) : StoredEvent :=
  match rename_for names self with
  | some rename => self.renamed rename
  | none => self

def Distinct (names : List ActorRename) : Prop := (names.map ActorRename.subject).Nodup

section Pass

variable {names : List ActorRename} {row : StoredEvent}

variable {rename : ActorRename}

theorem rename_for_eq_some (h : rename_for names row = some rename) :
    rename ∈ names ∧ rename.concerns row = true ∧ row.names_actor = true := by
  have hfou := find?_some h
  rw [Bool.and_eq_true] at hfou
  exact ⟨mem_of_find?_eq_some h, hfou⟩

theorem rename_for_eq_none : rename_for names row = none ↔
    ∀ rename ∈ names, rename.concerns row = true → row.names_actor = false := by
  rw [rename_for, find?_eq_none]
  refine forall₂_congr fun rename _ => ?_
  rw [Bool.and_eq_true, not_and, Bool.not_eq_true]

theorem ActorRename.concerns_subject (h : rename.concerns row = true) :
    row.actor_subject = rename.subject := by
  rw [ActorRename.concerns, Bool.and_eq_true] at h
  exact beq_iff_eq.mp h.1

theorem Distinct.same {rename' : ActorRename} (hdis : Distinct names) (h : rename ∈ names)
    (h' : rename' ∈ names) (hsub : rename.subject = rename'.subject) :
    rename = rename' := inj_on_of_nodup_map hdis h h' hsub

theorem repaired_of_concerns (hdis : Distinct names) (hmem : rename ∈ names)
    (hcon : rename.concerns row = true) (hnam : row.names_actor = true) :
    row.repaired names = row.renamed rename := by
  unfold StoredEvent.repaired
  cases hfou : rename_for names row with
  | none =>
    have hfal := rename_for_eq_none.mp hfou rename hmem hcon
    rw [hnam] at hfal
    simp at hfal
  | some rename' =>
    obtain ⟨hmem', hcon', -⟩ := rename_for_eq_some hfou
    rw [hdis.same hmem' hmem
      (ActorRename.concerns_subject hcon' ▸ ActorRename.concerns_subject hcon)]

theorem repaired_of_not_concerned
    (h : ∀ rename ∈ names, rename.concerns row = true → row.names_actor = false) :
    row.repaired names = row := by
  rw [StoredEvent.repaired, rename_for_eq_none.mpr h]

theorem renames_iff (hdis : Distinct names) {row' : StoredEvent} :
    Renames names row row' ↔ row.repaired names = row' := by
  constructor
  · rintro (⟨rename, hmem, hcon, hnam, rfl⟩ | ⟨hnone, rfl⟩)
    · exact repaired_of_concerns hdis hmem hcon hnam
    · exact repaired_of_not_concerned hnone
  · rintro rfl
    unfold StoredEvent.repaired
    cases hfou : rename_for names row with
    | none => exact .inr ⟨rename_for_eq_none.mp hfou, rfl⟩
    | some rename =>
      obtain ⟨hmem, hcon, hnam⟩ := rename_for_eq_some hfou
      exact .inl ⟨rename, hmem, hcon, hnam, rfl⟩

theorem renamed_renamed (rename : ActorRename) (row : StoredEvent) :
    (row.renamed rename).renamed rename = row.renamed rename := by
  have hsho : (row.renamed rename).shown = rename.name := rfl
  have hrec : (row.renamed rename).recorded_narrative ≠ none := by
    show (row.recorded_narrative <|> some row.narrative) ≠ none
    cases row.recorded_narrative <;> simp
  have hnar : rename.name ++ (row.renamed rename).narrative.drop rename.name.length
      = (row.renamed rename).narrative := by
    show rename.name ++ (rename.name ++ row.narrative.drop row.shown.length).drop
      rename.name.length = rename.name ++ row.narrative.drop row.shown.length
    rw [drop_left]
  obtain ⟨narrative, hkep⟩ := Option.ne_none_iff_exists'.mp hrec
  conv_lhs => rw [StoredEvent.renamed, hsho, hnar, if_neg hrec, hkep]
  show { row.renamed rename with recorded_narrative := some narrative } = row.renamed rename
  rw [← hkep]

/-- **A pass repeated changes nothing.** A row it renamed is either concerned by no name any more,
or by the one it was given. -/
theorem repaired_repaired (hdis : Distinct names) (row : StoredEvent) :
    (row.repaired names).repaired names = row.repaired names := by
  cases hfou : rename_for names row with
  | none =>
    have hsam : row.repaired names = row := by rw [StoredEvent.repaired, hfou]
    rw [hsam, hsam]
  | some rename =>
    have hrow : row.repaired names = row.renamed rename := by rw [StoredEvent.repaired, hfou]
    obtain ⟨hmem, hcon, -⟩ := rename_for_eq_some hfou
    rw [hrow, StoredEvent.repaired]
    cases hagai : rename_for names (row.renamed rename) with
    | none => rfl
    | some rename' =>
      obtain ⟨hmem', hcon', -⟩ := rename_for_eq_some hagai
      have haga : (row.renamed rename).actor_subject = rename'.subject :=
        ActorRename.concerns_subject hcon'
      have hsub : row.actor_subject = rename'.subject := haga
      rw [hdis.same hmem' hmem (hsub ▸ ActorRename.concerns_subject hcon)]
      exact renamed_renamed rename row

theorem repaired_keeps (names : List ActorRename) (row : StoredEvent) :
    (row.repaired names).id = row.id ∧ (row.Valid → (row.repaired names).Valid) := by
  unfold StoredEvent.repaired
  cases rename_for names row with
  | none => exact ⟨rfl, fun h => h⟩
  | some rename =>
    exact ⟨rfl, fun h => ⟨h.id_bigint, h.count_integer, h.microseconds, h.first_in_range, h.times⟩⟩

end Pass

/-- `rename_actors`, where no two names are for one subject. -/
def Trail.rename_actors (self : Trail) (names : List ActorRename) : Trail where
  rows := self.rows.map (·.repaired names)
  unique_id := by
    have hids : (self.rows.map (·.repaired names)).map StoredEvent.id
        = self.rows.map StoredEvent.id := by
      rw [map_map]
      exact map_congr_left fun row _ => (repaired_keeps names row).1
    rw [hids]
    exact self.unique_id
  valid := by
    intro row' hrow'
    obtain ⟨row, hrow, rfl⟩ := mem_map.mp hrow'
    exact (repaired_keeps names row).2 (self.valid row hrow)

variable {trail trail' : Trail} {names : List ActorRename} {row : StoredEvent}

theorem Trail.ext_rows (h : trail.rows = trail'.rows) : trail = trail' := by
  cases trail
  cases trail'
  cases h
  rfl

theorem Trail.renamed_iff (hdis : Distinct names) :
    trail.Renamed names trail' ↔ trail' = trail.rename_actors names := by
  have hrow : Renames names = fun row row' => row.repaired names = row' := by
    funext row row'
    exact propext (renames_iff hdis)
  have hrows : trail.Renamed names trail' ↔
      trail.rows.map (·.repaired names) = trail'.rows := by
    rw [← forall₂_eq_eq_eq, forall₂_map_left_iff, Trail.Renamed, hrow]
  rw [hrows]
  constructor
  · exact fun h => (Trail.ext_rows h).symm
  · rintro rfl
    rfl

theorem Trail.rename_actors_idem (hdis : Distinct names) (trail : Trail) :
    (trail.rename_actors names).rename_actors names = trail.rename_actors names := by
  apply Trail.ext_rows
  show (trail.rows.map (·.repaired names)).map (·.repaired names) = _
  rw [map_map]
  exact map_congr_left fun row _ => repaired_repaired hdis row

/-! ## Any number of passes -/

def StoredEvent.after (self : StoredEvent) (passes : List (List ActorRename)) : StoredEvent :=
  passes.foldl StoredEvent.repaired self

def Trail.after (self : Trail) (passes : List (List ActorRename)) : Trail :=
  passes.foldl Trail.rename_actors self

def Trail.Passed : List (List ActorRename) → Trail → Trail → Prop
  | [], trail, trail' => trail' = trail
  | names :: later, trail, trail' =>
    ∃ next, trail.Renamed names next ∧ Trail.Passed later next trail'

theorem Trail.rows_after (trail : Trail) (passes : List (List ActorRename)) :
    (trail.after passes).rows = trail.rows.map (·.after passes) := by
  induction passes generalizing trail with
  | nil => exact (map_id _).symm
  | cons names later ih =>
    show ((trail.rename_actors names).after later).rows = _
    rw [ih]
    show (trail.rows.map (·.repaired names)).map (·.after later) = _
    rw [map_map]
    rfl

theorem Trail.passed_iff {passes : List (List ActorRename)}
    (hdis : ∀ names ∈ passes, Distinct names) :
    Trail.Passed passes trail trail' ↔ trail' = trail.after passes := by
  induction passes generalizing trail with
  | nil => exact Iff.rfl
  | cons names later ih =>
    rw [forall_mem_cons] at hdis
    simp only [Trail.Passed, Trail.renamed_iff hdis.1, exists_eq_left, ih hdis.2]
    exact Iff.rfl

def StoredEvent.restored (self : StoredEvent) : StoredEvent :=
  match self.recorded_narrative with
  | none => self
  | some narrative =>
    { self with
      actor_name := self.recorded_actor_name
      narrative := narrative
      recorded_actor_name := none
      recorded_narrative := none }

def StoredEvent.Kept (self : StoredEvent) : Prop :=
  self.recorded_narrative = none → self.recorded_actor_name = none

theorem renamed_restored (rename : ActorRename) (hkep : row.Kept) :
    (row.renamed rename).Kept ∧ (row.renamed rename).restored = row.restored := by
  obtain ⟨id, kind, display_path, counterpart, occurred_at, first_occurred_at, event_count,
    actor_subject, actor_name, protocol_version, old_value, new_value, narrative,
    coalesce_digest, recorded_actor_name, recorded_narrative⟩ := row
  cases recorded_narrative with
  | some kept => exact ⟨fun h => absurd h (by simp [StoredEvent.renamed]), rfl⟩
  | none =>
    obtain rfl : recorded_actor_name = none := hkep rfl
    exact ⟨fun h => absurd h (by simp [StoredEvent.renamed]), rfl⟩

theorem repaired_restored (names : List ActorRename) (hkep : row.Kept) :
    (row.repaired names).Kept ∧ (row.repaired names).restored = row.restored := by
  unfold StoredEvent.repaired
  cases rename_for names row with
  | none => exact ⟨hkep, rfl⟩
  | some rename => exact renamed_restored rename hkep

theorem after_restored (passes : List (List ActorRename)) (hkep : row.Kept) :
    (row.after passes).restored = row.restored := by
  induction passes generalizing row with
  | nil => rfl
  | cons names later ih =>
    obtain ⟨hnex, hsam⟩ := repaired_restored names hkep
    exact (ih hnex).trans hsam

theorem repaired_recorded (names : List ActorRename)
    (h : row.repaired names ≠ row ∨ row.recorded_narrative ≠ none) :
    (row.repaired names).recorded_narrative ≠ none := by
  unfold StoredEvent.repaired at h ⊢
  cases hfou : rename_for names row with
  | none =>
    rw [hfou] at h
    exact h.resolve_left fun hne => hne rfl
  | some rename =>
    show (row.recorded_narrative <|> some row.narrative) ≠ none
    cases row.recorded_narrative <;> simp

theorem after_recorded (passes : List (List ActorRename)) (h : row.recorded_narrative ≠ none) :
    (row.after passes).recorded_narrative ≠ none := by
  induction passes generalizing row with
  | nil => exact h
  | cons names later ih => exact ih (repaired_recorded names (.inr h))

def FirstChange (row : StoredEvent) (before : List (List ActorRename))
    (names : List ActorRename) : Prop :=
  (∀ earlier, earlier <+: before → row.after earlier = row) ∧ row.repaired names ≠ row

theorem StoredEvent.after_append (row : StoredEvent) (passes passes' : List (List ActorRename)) :
    row.after (passes ++ passes') = (row.after passes).after passes' := foldl_append

theorem after_first_change {before later : List (List ActorRename)}
    (hnam : row.recorded_actor_name = none) (hnar : row.recorded_narrative = none)
    (hfir : FirstChange row before names) :
    (row.after (before ++ names :: later)).recorded_actor_name = row.actor_name ∧
      (row.after (before ++ names :: later)).recorded_narrative = some row.narrative := by
  have hbef : row.after before = row := hfir.1 before prefix_rfl
  have hrec : (row.after (before ++ names :: later)).recorded_narrative ≠ none := by
    rw [StoredEvent.after_append, hbef]
    exact after_recorded later (repaired_recorded names (.inl hfir.2))
  have hrow : row.restored = row := by rw [StoredEvent.restored, hnar]
  have hkep : row.Kept := fun _ => hnam
  have hsam := after_restored (before ++ names :: later) hkep
  rw [hrow] at hsam
  obtain ⟨narrative, hsom⟩ := Option.ne_none_iff_exists'.mp hrec
  rw [StoredEvent.restored, hsom] at hsam
  refine ⟨congrArg StoredEvent.actor_name hsam, ?_⟩
  rw [hsom]
  exact congrArg (fun row => some row.narrative) hsam

/-- **The repair of names is confined, idempotent and reversible.** -/
theorem name_repair {names : List ActorRename} (hdistinct : Distinct names) (trail : Trail) :
    (∀ trail', trail.Renamed names trail' ↔ trail' = trail.rename_actors names) ∧
    (trail.rename_actors names).rows = trail.rows.map (·.repaired names) ∧
    (∀ row ∈ trail.rows,
      (∀ rename ∈ names, rename.concerns row = true → row.names_actor = true →
        ∃ rest, row.narrative = row.shown ++ ' ' :: rest ∧ row.repaired names =
          { row with
            actor_name := some rename.name
            narrative := rename.name ++ ' ' :: rest
            recorded_actor_name :=
              if row.recorded_narrative = none then row.actor_name else row.recorded_actor_name
            recorded_narrative := row.recorded_narrative <|> some row.narrative }) ∧
      ((∀ rename ∈ names, rename.concerns row = true → row.names_actor = false) →
        row.repaired names = row)) ∧
    (trail.rename_actors names).rename_actors names = trail.rename_actors names ∧
    (∀ passes, (∀ names ∈ passes, Distinct names) →
      (∀ trail', Trail.Passed passes trail trail' ↔ trail' = trail.after passes) ∧
      (trail.after passes).rows = trail.rows.map (·.after passes) ∧
      ∀ row ∈ trail.rows, row.recorded_actor_name = none → row.recorded_narrative = none →
        (row.after passes).restored = row ∧
        ∀ before names later, passes = before ++ names :: later → FirstChange row before names →
          (row.after passes).recorded_actor_name = (row.after before).actor_name ∧
          (row.after passes).recorded_narrative = some (row.after before).narrative) := by
  refine ⟨fun trail' => Trail.renamed_iff hdistinct, rfl, ?_,
    Trail.rename_actors_idem hdistinct trail, ?_⟩
  · intro row _
    refine ⟨fun rename hmem hcon hnam => ?_, repaired_of_not_concerned⟩
    obtain ⟨rest, hres⟩ := names_actor_iff.mp hnam
    refine ⟨rest, hres, ?_⟩
    rw [repaired_of_concerns hdistinct hmem hcon hnam, StoredEvent.renamed, hres,
      drop_left]
  · intro passes hpas
    refine ⟨fun trail' => Trail.passed_iff hpas, trail.rows_after passes, ?_⟩
    intro row _ hname hnar
    constructor
    · have hrow : row.restored = row := by rw [StoredEvent.restored, hnar]
      exact (after_restored passes fun _ => hname).trans hrow
    · rintro before names later rfl hfir
      rw [hfir.1 before prefix_rfl]
      exact after_first_change hname hnar hfir

end SovereignConfig.Audit

namespace SovereignConfig.Managed

open Lib Text Audit

/-! ## The names of a repair (`managed/repair.rs`) -/

structure AccountRow where
  connection_id : Text
  display_name : Text
  provider_user_uid : Text
deriving DecidableEq

def ACCESS_URL_MARKER : Text := " (access URL)".toList

def marked (name : Text) : Text := name ++ ACCESS_URL_MARKER

def actor_rename (account : AccountRow) : Option ActorRename :=
  match ConnectionId.parse account.connection_id with
  | .error _ => none
  | .ok connection_id =>
    let username := managed_username connection_id account.display_name
    some ⟨account.provider_user_uid, marked account.display_name, username, marked username⟩

def actor_renames (accounts : List AccountRow) : List ActorRename :=
  accounts.filterMap actor_rename

theorem actor_renames_distinct {accounts : List AccountRow}
    (h : (accounts.map AccountRow.provider_user_uid).Nodup) :
    Distinct (actor_renames accounts) := by
  refine nodup_filterMap_key h fun account rename hren => ?_
  unfold actor_rename at hren
  split at hren
  · simp at hren
  · rw [← Option.some.inj hren]

def deploy_account : AccountRow :=
  ⟨"abcdefghijklmnop".toList, "Deploy".toList, "s".toList⟩

def nameless_access : StoredEvent :=
  ⟨1, .SecretRevealed, ⟨"/a".toList, canonical_a⟩, none, 0, 0, 1, "s".toList, none, "v5".toList, none,
    none, "s revealed secret /a".toList, none, none, none⟩

def nameless_trail : Trail := ⟨[nameless_access], by decide, by decide⟩

theorem nameless_access_repaired :
    (nameless_trail.rename_actors (actor_renames [deploy_account])).rename_actors
        (actor_renames [deploy_account]) =
      nameless_trail.rename_actors (actor_renames [deploy_account]) ∧
    (nameless_access.repaired (actor_renames [deploy_account])).narrative =
      "Deploy (access URL) revealed secret /a".toList ∧
    (nameless_access.after [actor_renames [deploy_account]]).recorded_narrative =
      some nameless_access.narrative := by
  have hdis : Distinct (actor_renames [deploy_account]) :=
    actor_renames_distinct (List.nodup_singleton _)
  obtain ⟨-, -, -, haga, hpas⟩ := name_repair hdis nameless_trail
  obtain ⟨-, -, hrow⟩ := hpas [actor_renames [deploy_account]] (by simpa using hdis)
  have hfir : FirstChange nameless_access [] (actor_renames [deploy_account]) := by
    refine ⟨fun earlier hear => ?_, by decide +kernel⟩
    rw [List.prefix_nil.mp hear]
    rfl
  exact ⟨haga, by decide +kernel,
    ((hrow nameless_access List.mem_cons_self rfl rfl).2 [] _ [] rfl hfir).2⟩

end SovereignConfig.Managed
