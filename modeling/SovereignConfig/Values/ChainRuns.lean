/-
The walk through `put_value` for `Values/Chain.lean`: whoever overwrites a content must have read
it too. Without the condition two puts break the chain.
-/
import SovereignConfig.Values.Chain

namespace SovereignConfig.Values

open Lib Text List Function Shared

variable {ι : Type} [DecidableEq ι] {t : Tables} {replaces : ι → Prop} {i : ι}

def chain_cond (replaces : ι → Prop) (u : Noted ι) (l : Label ι Request Request.Answer)
    (u' : Noted ι) : Prop :=
  ReadsAlone u.1 l u'.1 ∧ u'.1.Consistent ∧ Shared.Allowed replaces u.1 l u'.1

abbrev ChainSafe (t : Tables) (replaces : ι → Prop) (i : ι) {α : Type} (x : Service α)
    (P : Noted ι → Prop) (R : α → Noted ι → Prop) : Prop :=
  Guarded ((Shared.system ι).remember note_reads) (chain_cond replaces)
    (chain_discipline t replaces) i x P R

variable {q : Request} {r : ι → Option ℕ} {w w' : Shared ι} {F : Noted ι → Prop}
  {next_content_id : ℕ} {c : Config ι (Shared ι) Request Request.Answer Status Reply}

variable {a : q.Answer}

theorem Chaining.statement (h : Chaining t (w, r)) (hcon : w'.Consistent)
    (hall : Shared.Allowed replaces w (.asked i q a) w') (hope : w'.opened i = true)
    (hlock : ∀ lock ∈ w.path_locks i, lock ∈ w'.path_locks i)
    (hwri : ∀ id, (w'.contents id).Mine i → (w.contents id).committed ≠ none → r i = some id) :
    Chaining t (w', r) := by
  obtain ⟨hsam, heff, _⟩ := hall
  have hqui : Shared.Quiet w w' := by
    refine heff.resolve_right ?_
    rintro ⟨rfl, _⟩
    simp [Shared.commit] at hope
  refine h.of_quiet hcon hqui ?_ h.alone ?_ ?_
  · intro j id hj
    obtain ⟨hj', fold, hloc, hher⟩ := h.reading j id hj
    by_cases hji : j = i
    · subst hji
      exact ⟨hope, fold, hlock _ hloc, hher⟩
    · have hs := hsam j hji
      exact ⟨hs.opened.trans hj', fold, hs.path_locks ▸ hloc, hher⟩
  · intro id j hm hc
    by_cases hji : j = i
    · subst hji
      exact hwri id hm hc
    · exact h.writing id j (((hsam j hji).mine_content id).mp hm) hc
  · intro j hj
    by_cases hji : j = i
    · subst hji
      exact absurd (hope.symm.trans hj) (by simp)
    · have hs := hsam j hji
      exact hs.recorded.trans (h.unrecorded j (hs.opened ▸ hj))

theorem opened_of_allowed (hall : Shared.Allowed replaces w (.asked i q a) w')
    (hope : w'.opened i = true) (j : ι) (hj : w.opened j = true) : w'.opened j = true := by
  by_cases hji : j = i
  · rwa [hji]
  · exact (hall.1 j hji).opened.trans hj

theorem chain_error (hcom : q ≠ .commit) (e : Status) (P : Noted ι → Prop) :
    Serves ((Shared.system ι).remember note_reads) (chain_cond replaces)
      (chain_discipline t replaces) i P q (.error e) fun _ => True := by
  rintro ⟨w, r⟩ ⟨w', r'⟩ hinv _ ⟨hfai, hnot⟩ ⟨_, _, hall⟩
  obtain rfl : w' = w := by
    rcases hfai with heq | ⟨hq, _⟩
    · exact heq
    · exact absurd hq hcom
  have hsil : looked_up (.asked i q (.error e) : Label ι Request Request.Answer) = none := by
    unfold looked_up
    split
    · rename_i heq
      cases heq
    · rfl
  obtain rfl : r' = r := hnot.trans (note_reads_silent hinv hsil fun _ hj => hj)
  exact ⟨hinv, ⟨hall, hnot⟩, trivial⟩

theorem chain_statement (q : Request) {G : q.Row → Noted ι → Prop} (hcom : q ≠ .commit)
    (hloo : ∀ a, looked_up (.asked i q a : Label ι Request Request.Answer) = none)
    (hopen : ∀ w row w', Shared.Executes i q w row w' → w.opened i = true) (hF : LastingNoted t i F)
    (h : ∀ w r row w', Chaining t (w, r) → w.opened i = true → F (w, r) →
      Shared.Executes i q w row w' →
      w'.opened i = true ∧ (∀ lock ∈ w.path_locks i, lock ∈ w'.path_locks i) ∧
      (∀ id, (w'.contents id).Mine i → (w.contents id).committed ≠ none → r i = some id) ∧
      G row (w', r)) :
    ChainSafe t replaces i (query q) (KnowsNoted i F) fun row => KnowsNoted i (G row) := by
  refine guarded_query hF.stable (fun e => chain_error hcom e _) fun row => ?_
  rintro ⟨w, r⟩ ⟨w', r'⟩ hinv hkno ⟨hexe, hnot⟩ ⟨_, hcon, hall⟩
  have hope := hopen w row w' hexe
  obtain ⟨hope', hloc, hwri, hG⟩ := h w r row w' hinv hope (hkno hope) hexe
  obtain rfl : r' = r :=
    hnot.trans (note_reads_silent hinv (hloo _) (opened_of_allowed hall hope'))
  exact ⟨hinv.statement hcon hall hope' hloc hwri, ⟨hall, hnot⟩, fun _ => hG⟩

theorem chain_silent (q : Request) (hcom : q ≠ .commit)
    (hloo : ∀ a, looked_up (.asked i q a : Label ι Request Request.Answer) = none)
    (hsil : ∀ w row w', Shared.Executes i q w row w' → w' = w) (hF : LastingNoted t i F) :
    ChainSafe t replaces i (query q) (KnowsNoted i F) fun _ => KnowsNoted i F := by
  refine guarded_query hF.stable (fun e => chain_error hcom e _) fun row => ?_
  rintro ⟨w, r⟩ ⟨w', r'⟩ hinv hkno ⟨hexe, hnot⟩ ⟨_, _, hall⟩
  obtain rfl := hsil w row w' hexe
  obtain rfl : r' = r := hnot.trans (note_reads_silent hinv (hloo _) fun _ hj => hj)
  exact ⟨hinv, ⟨hall, hnot⟩, hkno⟩

theorem chain_begin : ChainSafe t replaces i store.begin (fun u => u.1.opened i = false)
      fun _ => KnowsNoted i (Untouched i) := by
  have hsta : Stable (chain_discipline t replaces) i fun u : Noted ι => u.1.opened i = false :=
    fun u l u' hu hu' hclo hfor hall =>
      stable_closed i u.1 l u'.1 hu.consistent hu'.consistent hclo hfor hall.1
  refine guarded_query hsta (fun e => chain_error (by simp) e _) fun row => ?_
  rintro ⟨w, r⟩ ⟨w', r'⟩ hinv hclo ⟨⟨_, hw'⟩, hnot⟩ ⟨_, hcons, hall⟩
  obtain rfl : w' = { w with opened := update w.opened i true } := hw'
  have hope' : update w.opened i true i = true := update_self ..
  obtain rfl : r' = r :=
    hnot.trans (note_reads_silent hinv rfl (opened_of_allowed hall hope'))
  obtain ⟨_, _, hpat, hcon⟩ := hinv.consistent.closed i hclo
  refine ⟨hinv.statement hcons hall hope' (fun _ hl => hl)
    fun id hm => absurd hm (hcon id), ⟨hall, hnot⟩, fun _ => ?_⟩
  exact ⟨⟨hpat, hcon⟩, hinv.unrecorded i hclo⟩

theorem chain_lock_mutation_path (p : ConfigPath) :
    ChainSafe t replaces i (lock_mutation_path p) (KnowsNoted i (Untouched i))
      fun _ => KnowsNoted i fun u => u.1.Holds i p ∧ Untouched i u := by
  let F : List (LockRequest Text) → Noted ι → Prop := fun l u =>
    (∀ lock ∈ mutation_locks p, lock ∈ l ∨ lock ∈ u.1.path_locks i) ∧ Untouched i u
  have hF : ∀ l, LastingNoted t i (F l) := fun l =>
    (lasting_locking (mutation_locks p) l).noted.and lasting_untouched
  refine Guarded.conseq (Guarded.forM (I := fun l => KnowsNoted i (F l)) (mutation_locks p)
    fun lock _ l => ?_) ?_ ?_
  · refine chain_statement (.lock_path lock.key lock.exclusive) (by simp) (fun _ => rfl)
      (fun _ _ _ hx => hx.1) (hF _) ?_
    rintro w r _ w' hinv hope ⟨hlock, hunt⟩ ⟨_, _, rfl⟩
    have hmin : ∀ {x}, x ∈ w.path_locks i →
        x ∈ update w.path_locks i (lock :: w.path_locks i) i := by
      intro x hx
      rw [update_self]
      exact mem_cons_of_mem lock hx
    refine ⟨hope, fun _ => hmin, fun id hm => absurd hm (hunt.1.2 id), ?_, hunt⟩
    intro x hx
    rcases hlock x hx with hl | hhel
    · rcases mem_cons.mp hl with rfl | hl
      · exact Or.inr (by simp)
      · exact Or.inl hl
    · exact Or.inr (hmin hhel)
  · intro u _ hu hope
    exact ⟨fun lock hloc => Or.inl hloc, hu hope⟩
  · intro _ u _ hu hope
    obtain ⟨hhel, hunt⟩ := hu hope
    exact ⟨fun lock hloc => (hhel lock hloc).resolve_left not_mem_nil, hunt⟩

theorem note_reads_lookup (h : Chaining t (w, r)) (hope : w.opened i = true) (fold : Text)
    (row : PathContentClassRow) :
    note_reads w (.asked i (.path_content_class fold) (.ok (some row))) w r =
      update r i (some row.content_id) := by
  funext j
  by_cases hj : j = i
  · subst hj
    simp [note_reads, looked_up, hope]
  · simp only [note_reads, looked_up, update_of_ne hj, if_neg (Ne.symm hj)]
    split
    · rfl
    · rename_i hclo
      exact (h.reads_none (by simpa using hclo)).symm

/-- **The read.** No other transaction has read the content: it would hold the lock of the path it
has read it through. -/
theorem chain_path_content_class (p : ConfigPath) :
    ChainSafe t replaces i (store.path_content_class p.fold)
      (KnowsNoted i fun u => u.1.Holds i p ∧ Untouched i u)
      fun found => KnowsNoted i fun u => (u.1.Holds i p ∧ Untouched i u) ∧
        ∀ row, found = some row → ReadBy i p row u := by
  have hF : LastingNoted t i fun u => u.1.Holds i p ∧ Untouched i u :=
    LastingNoted.and (Shared.Lasting.noted (fact_holds p).lasting) lasting_untouched
  refine guarded_query hF.stable (fun e => chain_error (by simp) e _) fun found => ?_
  rintro ⟨w, r⟩ ⟨w', r'⟩ (hinv : Chaining t (w, r)) hkno ⟨⟨hope, hw', _, hfou⟩, hnot⟩
    ⟨halo, _, hall⟩
  obtain rfl : w' = w := hw'
  obtain ⟨hhol, hunt⟩ := hkno hope
  cases found with
  | none =>
    obtain rfl : r' = r := hnot.trans (note_reads_silent hinv rfl fun _ hj => hj)
    exact ⟨hinv, ⟨hall, hnot⟩, fun _ => ⟨⟨hhol, hunt⟩, fun _ h => by cases h⟩⟩
  | some row =>
    obtain ⟨path, c, ⟨hpat, hc⟩, hfol, hid, hval, hcls, _⟩ := hfou row rfl
    rw [hunt.1.seen_path, hfol] at hpat
    rw [hunt.1.seen_content, ← hid] at hc
    have hher : w'.HasPath p.fold row.content_id := ⟨path, hpat, hid.symm⟩
    obtain rfl : r' = update r i (some row.content_id) :=
      hnot.trans (note_reads_lookup hinv hope p.fold row)
    -- Another reader of the content would hold the lock of one of its paths.
    have hoth : ∀ j, j ≠ i → r j ≠ some row.content_id := by
      intro j hj hread
      obtain ⟨_, other, hloc, hothe⟩ := hinv.reading j _ hread
      exact halo i p.fold row rfl j hj other hothe hloc
    refine ⟨?_, ⟨hall, hnot⟩, fun _ => ⟨⟨hhol, hunt⟩, ?_⟩⟩
    · refine hinv.of_quiet hinv.consistent (.refl w') ?_ ?_ ?_ hinv.unrecorded
      · intro j id hj
        by_cases hji : j = i
        · subst hji
          rw [update_self, Option.some.injEq] at hj
          subst hj
          refine ⟨hope, p.fold, hhol _ ?_, hher⟩
          rw [mutation_locks_eq]
          simp
        · rw [update_of_ne hji] at hj
          exact hinv.reading j id hj
      · intro j k id hj hk
        by_cases hji : j = i
        · by_cases hki : k = i
          · rw [hji, hki]
          · subst hji
            rw [update_self] at hj
            rw [update_of_ne hki] at hk
            exact absurd (hk.trans hj.symm) (hoth k hki)
        · by_cases hki : k = i
          · subst hki
            rw [update_self] at hk
            rw [update_of_ne hji] at hj
            exact absurd (hj.trans hk.symm) (hoth j hji)
          · rw [update_of_ne hji] at hj
            rw [update_of_ne hki] at hk
            exact hinv.alone j k id hj hk
      · intro id j hm hcom
        by_cases hji : j = i
        · subst hji
          exact absurd hm (hunt.1.2 id)
        · rw [update_of_ne hji]
          exact hinv.writing id j hm hcom
    · intro row' hrow'
      obtain rfl := Option.some.inj hrow'
      refine ⟨hhol, hunt, hher, update_self .., c, hc, ?_⟩
      rw [ContentRow.recorded, hval, hcls]

omit [DecidableEq ι] in
theorem mine_of_update {κ ρ : Type} [DecidableEq κ] {cells : κ → Cell ι ρ} {key k : κ}
    {v : Option ρ} (h : (update cells key ((cells key).write i v) k).Mine i) :
    k = key ∨ (cells k).Mine i := by
  by_cases hk : k = key
  · exact Or.inl hk
  · rw [update_of_ne hk] at h
    exact Or.inr h

omit [DecidableEq ι] in
/-- The first content a transaction writes is the only one it has overwritten. -/
theorem wrote_only_first {rows : List AuditRow} (hclean : ∀ key, ¬ (w.contents key).Mine i)
    (hrec : w.recorded i = rows) (id : ℕ) (row : ContentRow) :
    WroteOnly i id row.recorded rows (w.write_content i id (some row), r) := by
  refine ⟨fun key hm => (mine_of_update hm).resolve_right (hclean key), ⟨row, ?_, rfl⟩, hrec⟩
  show (update w.contents id _ id).pending = _
  rw [update_self]
  rfl

theorem chain_overwrite_existing (p : ConfigPath) (existing : PathContentClassRow) (value : Text)
    (now : OffsetDateTime) : ChainSafe t replaces i (overwrite_existing existing value .PLAIN now)
      (KnowsNoted i (ReadBy i p existing)) fun _ => KnowsNoted i (PutOver i p existing.content_id
        (Recorded.of existing.classification existing.value).plain (some value) []) := by
  unfold overwrite_existing
  split
  · exact Guarded.error
  refine chain_statement (.update_content existing.content_id value .PLAIN now) (by simp)
    (fun _ => rfl) (fun _ _ _ hx => hx.1) (lasting_read_by p existing) ?_
  rintro w r row w' _ hope hread ⟨_, old, ⟨_, hfre, _, rfl⟩, _⟩
  have hcel := Shared.Rewrites.update hfre
    (some { old with value := value, classification := .PLAIN, updated_at := now })
  have honly := wrote_only_first (r := r) hread.untouched.1.2 hread.untouched.2
    existing.content_id { old with value := value, classification := .PLAIN, updated_at := now }
  obtain ⟨c, hc, hval⟩ := hread.value
  refine ⟨hope, fun _ hl => hl, fun id hm _ => ?_, honly, hread.holds, hread.path,
    hread.untouched.1.1, hread.reads, ⟨c, (hcel.committed _).trans hc, hval⟩⟩
  rw [honly.only id hm]
  exact hread.reads

theorem chain_create_value (p : ConfigPath) (value : Text) (now : OffsetDateTime) :
    ChainSafe t replaces i (create_value p value .PLAIN now)
      (KnowsNoted i fun u => u.1.Holds i p ∧ Untouched i u)
      fun _ => KnowsNoted i fun u => ∃ id, PutNew i p id (some value) [] u := by
  have hF : LastingNoted t i fun u => u.1.Holds i p ∧ Untouched i u :=
    (fact_holds p).lasting.noted.and lasting_untouched
  unfold create_value
  refine (chain_silent (.path_collides p.fold) (by simp) (fun _ => rfl) (fun _ _ _ hx => hx.2.1)
    hF).bind fun (collides : Bool) => ?_
  cases collides with
  | true => exact Guarded.error
  | false =>
    have hres : ChainSafe t replaces i store.reserve_content_id
        (KnowsNoted i fun u => u.1.Holds i p ∧ Untouched i u)
        fun _ => KnowsNoted i fun u => u.1.Holds i p ∧ Untouched i u := by
      refine chain_statement .reserve_content_id (by simp) (fun _ => rfl) (fun _ _ _ hx => hx.1)
        hF ?_
      rintro w r id w' _ hope ⟨hhol, hunt⟩ ⟨_, _, rfl⟩
      exact ⟨hope, fun _ hl => hl, fun id hm => absurd hm (hunt.1.2 id), hhol, hunt⟩
    refine hres.bind fun id => ?_
    have hins : ChainSafe t replaces i (store.insert_content id value .PLAIN now)
        (KnowsNoted i fun u => u.1.Holds i p ∧ Untouched i u)
        fun row => KnowsNoted i (PutContentOnly i p row.id (some value)) := by
      refine chain_statement (.insert_content id value .PLAIN now) (by simp) (fun _ => rfl)
        (fun _ _ _ hx => hx.1) hF ?_
      rintro w r row w' _ hope ⟨hhol, hcle, hrec⟩ ⟨_, hsee, hfre, rfl, rfl⟩
      rw [hcle.seen_content] at hsee
      have honly := wrote_only_first (r := r) hcle.2 hrec id ⟨id, value, .PLAIN, now, now⟩
      refine ⟨hope, fun _ hl => hl, fun key hm hne => ?_, honly, hhol, hcle.1,
        ((Shared.Rewrites.update hfre _).committed id).trans hsee⟩
      rw [honly.only key hm] at hne
      exact absurd hsee hne
    refine hins.bind fun content => ?_
    have hpat : ChainSafe t replaces i (store.insert_path p.as_str content.id now)
        (KnowsNoted i (PutContentOnly i p content.id (some value)))
        fun _ => KnowsNoted i fun u => ∃ id, PutNew i p id (some value) [] u := by
      refine chain_statement (.insert_path p.as_str content.id now) (by simp) (fun _ => rfl)
        (fun _ _ _ hx => hx.1) (lasting_put_content p content.id (some value)) ?_
      rintro w r _ w' _ hope hput ⟨_, _, hsee, hfre, _, _, rfl⟩
      have hnot := hput.paths p.fold
      rw [show to_ascii_lowercase p.as_str = p.fold from rfl, Cell.seen_of_not_mine hnot] at hsee
      refine ⟨hope, fun _ hl => hl, fun key hm hne => ?_, content.id,
        ⟨hput.only, hput.after, hput.recorded⟩, ⟨⟨p.as_str, content.id, now, now⟩, ?_, rfl⟩,
        ((Shared.Rewrites.update hfre _).committed p.fold).trans hsee, fun fold hm => ?_,
        hput.absent⟩
      · exact absurd (hput.only key hm ▸ hput.absent) hne
      · show (update w.paths p.fold _ p.fold).pending = _
        rw [update_self]
        rfl
      · exact (mine_of_update hm).resolve_right (hput.paths fold)
    exact hpat.bind fun _ => fun _ _ hu => hu

theorem chain_commit (hF : LastingNoted t i F)
    (h : ∀ w r, Chaining t (w, r) → F (w, r) → (w.commit i).Consistent →
      ∀ a, Chaining t (w.commit i, note_reads w (.asked i .commit a) (w.commit i) r)) :
    ChainSafe t replaces i store.commit (KnowsNoted i F) fun _ _ => True := by
  refine ⟨_, fun _ _ hu => hu, hF.stable, fun a => ⟨fun _ => True, ?_, ?_⟩⟩
  · rintro ⟨w, r⟩ ⟨w', r'⟩ (hinv : Chaining t (w, r)) hkno ⟨hser, hnot⟩ ⟨_, hcon, hall⟩
    have hcom : w.opened i = true → w' = w.commit i → Chaining t (w', r') := by
      rintro hope rfl
      rw [show r' = _ from hnot]
      exact h w r hinv (hkno hope) hcon a
    refine ⟨?_, ⟨hall, hnot⟩, trivial⟩
    cases a with
    | ok row => exact hcom hser.1 hser.2
    | error e =>
      rcases hser with hsam | ⟨_, hope, heq⟩
      · obtain rfl : w' = w := hsam
        rw [show r' = r from hnot.trans (note_reads_silent hinv rfl fun _ hj => hj)]
        exact hinv
      · exact hcom hope heq
  · cases a with
    | ok row => exact fun _ _ _ => trivial
    | error e => trivial

/-- Recording the event and committing, over what has been written: `G` says what that is, and which
events are recorded. -/
theorem chain_finish {G : List AuditRow → Noted ι → Prop} (hG : ∀ rows, LastingNoted t i (G rows))
    (actor : Actor) (time : OffsetDateTime) (event : AuditEvent)
    (hrec : ∀ w r row, G [] (w, r) → w.recorded i = [] ∧
      (∀ id, (w.contents id).Mine i → (w.contents id).committed ≠ none → r i = some id) ∧
      G [row] ({ w with recorded := update w.recorded i [row] }, r))
    (hcom : ∀ w r, Chaining t (w, r) → G [⟨actor, time, event⟩] (w, r) →
      (w.commit i).Consistent →
      ∀ a, Chaining t (w.commit i, note_reads w (.asked i .commit a) (w.commit i) r))
    {α : Type} (reply : α) :
    ChainSafe t replaces i (do record_in actor time [event]; store.commit; return reply)
      (KnowsNoted i (G [])) fun _ _ => True := by
  have hins : ChainSafe t replaces i (record_in actor time [event]) (KnowsNoted i (G []))
      fun _ => KnowsNoted i (G [⟨actor, time, event⟩]) := by
    refine chain_statement (.insert_events actor time [event]) (by simp) (fun _ => rfl)
      (fun _ _ _ hx => hx.1) (hG []) ?_
    rintro w r _ w' _ hope hGw ⟨_, rfl⟩
    obtain ⟨hnone, hwri, hrow⟩ := hrec w r ⟨actor, time, event⟩ hGw
    rw [hnone]
    exact ⟨hope, fun _ hl => hl, hwri, hrow⟩
  refine hins.bind fun _ => ?_
  exact (chain_commit (hG _) hcom).bind fun _ => fun _ _ _ => trivial

theorem chain_put_value (context : CallContext) (path value : Text) :
    ChainSafe t replaces i (put_value context path (some (.Plain value)))
      (fun u => u.1.opened i = false) fun _ _ => True := by
  refine Guarded.lift fun p _ => Guarded.lift fun ⟨value', cls⟩ hcont => ?_
  obtain ⟨rfl, rfl⟩ : value = value' ∧ Classification.PLAIN = cls := by
    simpa [put_content] using hcont
  by_cases hnul : contains_char value '\x00' = true
  · simp only [hnul, if_true]
    exact Guarded.error
  simp only [hnul, if_false, Bool.false_eq_true]
  refine Guarded.lift fun actor _ => chain_begin.bind fun _ => ?_
  refine (chain_lock_mutation_path p).bind fun _ => ?_
  have hF : LastingNoted t i fun u => u.1.Holds i p ∧ Untouched i u :=
    (fact_holds p).lasting.noted.and lasting_untouched
  refine (chain_silent .system_time (by simp) (fun _ => rfl) (fun _ _ _ hx => hx) hF).bind
    fun (now : OffsetDateTime) => ?_
  refine (chain_path_content_class p).bind fun existing => ?_
  cases existing with
  | some existing =>
    have hwri : ChainSafe t replaces i (write_value p (some existing) value .PLAIN now)
        (KnowsNoted i fun u => (u.1.Holds i p ∧ Untouched i u) ∧
          ∀ row, some existing = some row → ReadBy i p row u)
        fun _ => KnowsNoted i (PutOver i p existing.content_id
          (Recorded.of existing.classification existing.value).plain (some value) []) :=
      (chain_overwrite_existing p existing value now).pre
        fun _ _ hu hope => (hu hope).2 existing rfl
    refine hwri.bind fun row => chain_finish (fun rows => lasting_put_over p _ _ _ rows)
      actor now _ ?_ ?_ _
    · intro w r row hput
      refine ⟨hput.recorded, fun id hm _ => (hput.only id hm) ▸ hput.reads, ?_⟩
      exact { hput with recorded := update_self .. }
    · intro w r hinv hput hcon a
      exact hput.commit hinv hcon rfl rfl rfl rfl
  | none =>
    have hwri : ChainSafe t replaces i (write_value p none value .PLAIN now)
        (KnowsNoted i fun u => (u.1.Holds i p ∧ Untouched i u) ∧
          ∀ row, none = some row → ReadBy i p row u)
        fun _ => KnowsNoted i fun u => ∃ id, PutNew i p id (some value) [] u :=
      (chain_create_value p value now).pre fun _ _ hu hope => (hu hope).1
    have hlas : ∀ rows, LastingNoted t i fun u => ∃ id, PutNew i p id (some value) rows u := by
      rintro rows u u' hu hu' henv ⟨id, hput⟩
      exact ⟨id, lasting_put_new p id _ rows u u' hu hu' henv hput⟩
    refine hwri.bind fun row => chain_finish hlas actor now _ ?_ ?_ _
    · rintro w r row ⟨id, hput⟩
      refine ⟨hput.recorded, fun key hm hne => absurd (hput.only key hm ▸ hput.absent) hne, id, ?_⟩
      exact { hput with recorded := update_self .. }
    · rintro w r hinv ⟨id, hput⟩ hcon a
      exact hput.commit hinv hcon rfl rfl rfl

theorem at_rest_chaining (h : t.Sound next_content_id) :
    Chaining t ((Shared.at_rest t next_content_id : Shared ι), fun _ => none) where
  consistent := at_rest_consistent h
  reading := fun _ _ hr => absurd hr (by simp)
  alone := fun _ _ _ hr => absurd hr (by simp)
  writing := fun _ _ ⟨_, hp⟩ => absurd hp (by simp [Shared.at_rest])
  unrecorded := fun _ _ => rfl
  resolved := fun _ hrow => absurd hrow (by simp [Shared.at_rest])
  kept := fun _ hid => hid
  created := fun _ hnone hid => absurd hnone hid
  chain := by
    intro id c hc
    have hrow : t.content_row id = some c := hc
    have hini : (Shared.at_rest t next_content_id : Shared ι).initial_value t id =
        c.recorded := by
      rw [Shared.initial_value, hrow]
    exact hini

theorem gathered_chaining (ht : t.Sound next_content_id) {contexts : ι → CallContext}
    {puts : ι → Text × Text} (h : Reach (Shared.system ι) ReadsAlone
      (gathered t next_content_id contexts (plain_puts puts)) c) :
    ∃ reads, Chaining t (c.world, reads) := by
  -- The discipline of all mutations holds of the run, so it may be assumed of its steps.
  have hall := (gathered_disciplined ht .refl).reach_allowed
    (discipline_sound _) (fun _ _ _ _ => trivial) h
  obtain ⟨reads, hrea⟩ := hall.remember note_reads fun _ => none
  have hsta : Disciplined ((Shared.system ι).remember note_reads)
      (chain_cond (Shared.Replaces (plain_puts puts)))
      (chain_discipline t (Shared.Replaces (plain_puts puts))) (fun _ _ _ => True)
      ⟨((gathered t next_content_id contexts (plain_puts puts)).world, fun _ => none),
        (gathered t next_content_id contexts (plain_puts puts)).pool⟩ := by
    refine ⟨at_rest_chaining ht, fun i x hx => Or.inr ?_⟩
    obtain rfl : (plain_puts puts i).call (contexts i) = x := by
      simpa [gathered] using hx
    refine ⟨fun u => u.1.opened i = false, ?_, ?_, rfl⟩
    · exact fun u l u' hu hu' hclo hfor hall =>
        stable_closed i u.1 l u'.1 hu.consistent hu'.consistent hclo hfor hall.1
    · exact (chain_put_value (contexts i) (puts i).1 (puts i).2).bind fun _ => fun _ _ _ => trivial
  exact ⟨reads, (hsta.reach (chain_discipline_sound _ _) hrea).inv⟩

/-- **The trail names what was overwritten.** -/
theorem updates_chain_when_read_alone (t : Tables) (next_content_id : ℕ)
    (ht : t.Sound next_content_id) (contexts : ι → CallContext) (puts : ι → Text × Text)
    (c : Config ι (Shared ι) Request Request.Answer Status Reply)
    (h : Reach (Shared.system ι) ReadsAlone
      (gathered t next_content_id contexts (plain_puts puts)) c)
    (id : ℕ) (content : ContentRow) (hid : (c.world.contents id).committed = some content) :
    Chained (c.world.initial_value t id) (c.world.filed .ValueUpdated id) := by
  obtain ⟨reads, hcha⟩ := gathered_chaining ht h
  exact (hcha.chain id content hid).chained

/-! ### Two puts through two paths -/

def put_through : Bool → Text × Text
  | true => ("/a".toList, "one".toList)
  | false => ("/b".toList, "two".toList)

def racing_puts : Config Bool (Shared Bool) Request Request.Answer Status Reply :=
  gathered aliased 2 (fun _ => operator) (plain_puts put_through)

theorem aliased_count (i : Bool) : (Shared.at_rest aliased 2 : Shared Bool).PathCount i 1 2 := by
  refine ⟨{"/a".toList, "/b".toList}, by decide, fun fold => ?_⟩
  show fold ∈ ({"/a".toList, "/b".toList} : Finset Text) ↔
    ∃ row, aliased.path_row fold = some row ∧ row.content_id = 1
  constructor
  · intro hmem
    rcases Finset.mem_insert.mp hmem with rfl | hmem
    · exact ⟨⟨"/a".toList, 1, 0, 0⟩, by decide, rfl⟩
    · obtain rfl := Finset.mem_singleton.mp hmem
      exact ⟨⟨"/b".toList, 1, 0, 0⟩, by decide, rfl⟩
  · rintro ⟨row, hrow, _⟩
    obtain ⟨hmem, rfl⟩ := Tables.path_row_eq_some.mp hrow
    rcases mem_cons.mp hmem with rfl | hmem
    · decide
    · obtain rfl := mem_singleton.mp hmem
      decide

theorem aliased_reads (content : ContentRow) {w : Shared Bool} {i : Bool} {path : Text}
    (hpat : w.paths = (Shared.at_rest aliased 2).paths)
    (hcon : (w.contents 1).seen i = some content) (hope : w.opened i = true)
    (hrow : aliased.path_row path = some ⟨path, 1, 0, 0⟩) :
    Shared.Executes i (.path_content_class path) w
      (some ⟨1, content.value, content.classification, 2⟩) w := by
  have hlow : PathRow.lowercase_path ⟨path, 1, 0, 0⟩ = path :=
    (Tables.path_row_eq_some.mp hrow).2
  refine ⟨hope, rfl, nofun, ?_⟩
  rintro row hr
  obtain rfl := Option.some.inj hr
  refine ⟨⟨path, 1, 0, 0⟩, content, ⟨?_, hcon⟩, hlow, rfl, rfl, rfl, ?_⟩
  · rw [hpat, hlow]
    exact hrow
  · obtain ⟨folds, hcar, hfol⟩ := aliased_count i
    refine ⟨folds, hcar, ?_⟩
    rw [hpat]
    exact hfol

theorem readsAlone_unlocked {w w' : Shared Bool} {i : Bool} {fold : Text}
    {row : PathContentClassRow} (h : ∀ other, ⟨other, true⟩ ∉ w.path_locks (!i)) :
    ReadsAlone w (.asked i (.path_content_class fold) (.ok (some row))) w' := by
  rintro i' fold' row' hl j hj other -
  obtain rfl : i = i' := by injection hl
  rw [Bool.eq_not_of_ne hj]
  exact h other

/-- The second put opens its transaction while the first is under way and reads once the first has
committed. Both are recorded. -/
theorem puts_recorded_in_turn : ∃ c, Reach (Shared.system Bool) ReadsAlone racing_puts c ∧
    (c.world.filed .ValueUpdated 1).length = 2 ∧
    Chained (c.world.initial_value aliased 1) (c.world.filed .ValueUpdated 1) := by
  have start : Reach (Shared.system Bool) ReadsAlone racing_puts racing_puts := .refl
  have begun := executed start true .begin () rfl ⟨rfl, rfl⟩ nofun
  have above := executed begun true (.lock_path ['/'] false) () rfl
    ⟨rfl, by decide, rfl⟩ nofun
  have locked := executed above true (.lock_path "/a".toList true) () rfl
    ⟨rfl, by decide, rfl⟩ nofun
  have begun' := executed locked false .begin () rfl ⟨rfl, rfl⟩ nofun
  have above' := executed begun' false (.lock_path ['/'] false) () rfl
    ⟨rfl, by decide, rfl⟩ nofun
  have timed := executed above' true .system_time (1 : ℤ) rfl rfl nofun
  have read := executed timed true (.path_content_class "/a".toList) _ rfl
    (aliased_reads aliased_content rfl rfl rfl (by decide)) (readsAlone_unlocked fun other =>
      (by simp : ⟨other, true⟩ ∉ [LockRequest.mk ['/'] false]))
  have written := executed read true (.update_content 1 "one".toList .PLAIN (1 : ℤ))
    ⟨(0 : ℤ), (1 : ℤ)⟩ rfl ⟨rfl, aliased_content, ⟨rfl, nofun, by decide, rfl⟩, rfl⟩ nofun
  have recorded := executed written true (.insert_events _ (1 : ℤ) _) () rfl ⟨rfl, rfl⟩ nofun
  have committed := executed recorded true .commit () rfl ⟨rfl, rfl⟩ nofun
  have locked' := executed committed false (.lock_path "/b".toList true) () rfl
    ⟨rfl, by decide, rfl⟩ nofun
  have timed' := executed locked' false .system_time (2 : ℤ) rfl rfl nofun
  have read' := executed timed' false (.path_content_class "/b".toList) _ rfl
    (aliased_reads ⟨1, "one".toList, .PLAIN, 0, 1⟩ rfl rfl rfl (by decide))
    (readsAlone_unlocked fun _ => not_mem_nil)
  have written' := executed read' false (.update_content 1 "two".toList .PLAIN (2 : ℤ))
    ⟨(0 : ℤ), (2 : ℤ)⟩ rfl ⟨rfl, ⟨1, "one".toList, .PLAIN, 0, 1⟩, ⟨rfl, nofun, by decide, rfl⟩, rfl⟩
    nofun
  have recorded' := executed written' false (.insert_events _ (2 : ℤ) _) () rfl ⟨rfl, rfl⟩
    nofun
  have committed' := executed recorded' false .commit () rfl ⟨rfl, rfl⟩ nofun
  exact ⟨_, committed', rfl, updates_chain_when_read_alone aliased 2 aliased_sound _ _ _ committed'
    1 ⟨1, "two".toList, .PLAIN, 0, 2⟩ rfl⟩

/-- **Both puts read the value before either overwrites it.** The second update waits for the first
to be committed and then replaces what it wrote; its event still names the value from before
both. -/
theorem racing_puts_break_chain : ∃ c, Reach (Shared.system Bool) (fun _ _ _ => True) racing_puts c ∧
    (c.world.contents 1).committed = some ⟨1, "two".toList, .PLAIN, 0, 1⟩ ∧
    ¬ Chained (c.world.initial_value aliased 1) (c.world.filed .ValueUpdated 1) := by
  have start : Reach (Shared.system Bool) (fun _ _ _ => True) racing_puts racing_puts := .refl
  have begun := executed start true .begin () rfl ⟨rfl, rfl⟩ trivial
  have above := executed begun true (.lock_path ['/'] false) () rfl
    ⟨rfl, by decide, rfl⟩ trivial
  have locked := executed above true (.lock_path "/a".toList true) () rfl
    ⟨rfl, by decide, rfl⟩ trivial
  have timed := executed locked true .system_time (1 : ℤ) rfl rfl trivial
  have read := executed timed true (.path_content_class "/a".toList) _ rfl
    (aliased_reads aliased_content rfl rfl rfl (by decide)) trivial
  -- The other put locks another path, so it does not wait.
  have begun' := executed read false .begin () rfl ⟨rfl, rfl⟩ trivial
  have above' := executed begun' false (.lock_path ['/'] false) () rfl
    ⟨rfl, by decide, rfl⟩ trivial
  have locked' := executed above' false (.lock_path "/b".toList true) () rfl
    ⟨rfl, by decide, rfl⟩ trivial
  have timed' := executed locked' false .system_time (1 : ℤ) rfl rfl trivial
  have read' := executed timed' false (.path_content_class "/b".toList) _ rfl
    (aliased_reads aliased_content rfl rfl rfl (by decide)) trivial
  have written := executed read' true (.update_content 1 "one".toList .PLAIN (1 : ℤ))
    ⟨(0 : ℤ), (1 : ℤ)⟩ rfl ⟨rfl, ⟨1, "v".toList, .PLAIN, 0, 0⟩, ⟨rfl, nofun, by decide, rfl⟩, rfl⟩
    trivial
  have recorded := executed written true (.insert_events _ (1 : ℤ) _) () rfl ⟨rfl, rfl⟩ trivial
  have committed := executed recorded true .commit () rfl ⟨rfl, rfl⟩ trivial
  -- What it overwrites now is not what it has read.
  have written' := executed committed false (.update_content 1 "two".toList .PLAIN (1 : ℤ))
    ⟨(0 : ℤ), (1 : ℤ)⟩ rfl ⟨rfl, ⟨1, "one".toList, .PLAIN, 0, 1⟩, ⟨rfl, nofun, by decide, rfl⟩, rfl⟩
    trivial
  have recorded' := executed written' false (.insert_events _ (1 : ℤ) _) () rfl ⟨rfl, rfl⟩
    trivial
  have committed' := executed recorded' false .commit () rfl ⟨rfl, rfl⟩ trivial
  exact ⟨_, committed', rfl, by decide +kernel⟩

end SovereignConfig.Values
