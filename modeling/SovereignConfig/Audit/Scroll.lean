/-
Scrolling through the trail while events are inserted and coalesced rows bumped: a keyset scroll
over the matching rows, a cursor being a position as text.
-/
import SovereignConfig.Audit.Visibility

namespace SovereignConfig.Audit

open Lib Text List Function

def AuditEntry.position (self : AuditEntry) : ℤ ×ₗ ℤ :=
  toLex (Timestamp.nanoseconds self.first_occurred_at, (self.id : ℤ))

variable {row : StoredEvent} {cursor : Text} {query : TrailQuery}

theorem position_entry_of (self : AuditTrailService) (h : row.Valid) :
    (entry_of self row).position = row.position := by
  have htim : Timestamp.nanoseconds (to_timestamp row.first_occurred_at)
      = row.first_occurred_at := by
    simp only [Timestamp.nanoseconds, to_timestamp]
    omega
  have hid : ((row.id.toNat : ℕ) : ℤ) = row.id := by
    have := h.id_bigint.1
    omega
  simp only [AuditEntry.position, entry_of, htim, hid]
  rfl

section Growing

variable {trails : ℕ → Trail} (hgrows : ∀ i, (trails i).Grows (trails (i + 1)))
include hgrows

variable {i j : ℕ}

theorem grows_le (hij : i ≤ j) : (trails i).Grows (trails j) := by
  induction j, hij using Nat.le_induction with
  | base => exact .refl
  | succ j _ ih => exact ih.trans (hgrows j)

theorem position_of_id {row row' : StoredEvent} (hrow : row ∈ (trails i).rows)
    (hrow' : row' ∈ (trails j).rows) (hid : row.id = row'.id) : row.position = row'.position := by
  wlog hij : i ≤ j generalizing i j row row'
  · exact (this hrow' hrow hid.symm (le_of_not_ge hij)).symm
  · obtain ⟨kept, hkep, hpos, hsam⟩ := (grows_le hgrows hij).keeps hrow
    have heq : kept = row' :=
      inj_on_of_nodup_map (trails j).unique_id hkep hrow' (hsam.trans hid)
    rw [← hpos, heq]

end Growing

def TrailQuery.at_cursor (self : TrailQuery) (cursor : Text) : TrailQuery :=
  { self with cursor }

/-- The event is owed to the query. -/
structure Matches (service : AuditTrailService) (principal : AuthenticatedPrincipal)
    (query : TrailQuery) (row : StoredEvent) : Prop where
  seen : Seen principal row
  in_scope : InScope query row
  satisfies : Satisfies service.locale query row

theorem satisfies_at_cursor {locale : CaseFold} :
    Satisfies locale (query.at_cursor cursor) row ↔ Satisfies locale query row := by
  constructor
  · rintro ⟨hpat, htex, hact, hfro, hunt, hver, hkin⟩
    exact ⟨hpat, htex, hact, hfro, hunt, hver, hkin⟩
  · rintro ⟨hpat, htex, hact, hfro, hunt, hver, hkin⟩
    exact ⟨hpat, htex, hact, hfro, hunt, hver, hkin⟩

theorem validate_at_cursor {valid : ValidQuery} (h : validate query = .ok valid)
    {after : Option (ℤ ×ₗ ℤ)} (hcursor : checked cursor parse_cursor = .ok after) :
    validate (query.at_cursor cursor) = .ok { valid with after } := by
  obtain ⟨hv, hone, hord⟩ := validate_iff.mp h
  exact validate_iff.mpr ⟨⟨hv.path, hv.element, hv.text, hv.actor, hv.version, hv.from_time,
    hv.until_time, hv.kinds, hcursor⟩, hone, hord⟩

/-! ## Pages as rows -/

section Pages

open Classical

variable {self : AuditTrailService} {context : CallContext} {principal : AuthenticatedPrincipal}
  {query : TrailQuery} {valid : ValidQuery}

noncomputable def matching (self : AuditTrailService) (principal : AuthenticatedPrincipal)
    (query : TrailQuery) (trail : Trail) : List StoredEvent :=
  trail.rows.filter fun row => decide (Matches self principal query row)

variable {trail : Trail} {after : Option (ℤ ×ₗ ℤ)} {cursor next : Text} {page : AuditPage} {i : ℕ}
  {pages : List AuditPage}

theorem mem_matching {row : StoredEvent} :
    row ∈ matching self principal query trail ↔
      row ∈ trail.rows ∧ Matches self principal query row := by
  rw [matching, mem_filter, decide_eq_true_iff]

theorem nodup_matching (trail : Trail) :
    ((matching self principal query trail).map StoredEvent.position).Nodup :=
  nodup_positions (trail.unique_id.sublist (filter_sublist.map _))

theorem matching_eq (trail : Trail) (cursor : Text) :
    ((trail.rows.filter fun row => decide (Seen principal row)).filter
        fun row => decide (InScope (query.at_cursor cursor) row)).filter
        (fun row => decide (Satisfies self.locale (query.at_cursor cursor) row))
      = matching self principal query trail := by
  rw [filter_filter, filter_filter]
  refine filter_congr fun row _ => ?_
  rw [Bool.eq_iff_iff, Bool.and_eq_true, Bool.and_eq_true, decide_eq_true_iff, decide_eq_true_iff,
    decide_eq_true_iff, decide_eq_true_iff, satisfies_at_cursor]
  constructor
  · rintro ⟨⟨hsat, hsco⟩, hsee⟩
    exact ⟨hsee, hsco, hsat⟩
  · rintro ⟨hsee, hsco, hsat⟩
    exact ⟨⟨hsat, hsco⟩, hsee⟩

structure PageOf (service : AuditTrailService) (principal : AuthenticatedPrincipal)
    (query : TrailQuery) (after : Option (ℤ ×ₗ ℤ)) (trail : Trail) (page : AuditPage) : Prop where
  events : page.events = (shown StoredEvent.position after (service.effective query)
    (matching service principal query trail)).map (entry_of service)
  next_cursor : page.next_cursor =
    if service.effective query < (fetch StoredEvent.position after (service.effective query + 1)
      (matching service principal query trail)).length
    then (shown StoredEvent.position after (service.effective query)
      (matching service principal query trail)).getLast?.map cursor_after
    else none
  counts : query.counts = true → after = none → page.counts = some
    ⟨trail.rows.countP fun row => decide (Seen principal row ∧ InScope query row),
      (matching service principal query trail).length⟩

variable (self) in
theorem page_at_cursor (hp : context.principal = .ok principal)
    (hval : validate query = .ok valid) (hcursor : checked cursor parse_cursor = .ok after)
    (trail : Trail) :
    ∃ page, query_audit_trail self context (query.at_cursor cursor) trail = .ok page ∧
      PageOf self principal query after trail page := by
  refine ⟨_, query_audit_trail_eq self principal hp (validate_at_cursor hval hcursor) trail,
    ?_, ?_, ?_⟩
  · simp only [expected, matching_eq, shown_eq]
    rfl
  · simp only [expected, matching_eq, shown_eq, lt_length_fetch]
    rfl
  · intro hcou hfir
    have hnil : cursor = [] := by
      rcases checked_ok hcursor with ⟨hnil, -⟩ | ⟨-, a, -, hsom⟩
      · exact hnil
      · exact absurd (hfir.symm.trans hsom) (by simp)
    have hask : (query.at_cursor cursor).counts = true ∧ (query.at_cursor cursor).cursor = [] :=
      ⟨hcou, hnil⟩
    have hsco : (trail.rows.filter fun row => decide (Seen principal row)).filter
          (fun row => decide (InScope (query.at_cursor cursor) row))
        = trail.rows.filter fun row => decide (Seen principal row ∧ InScope query row) := by
      rw [filter_filter]
      refine filter_congr fun row _ => ?_
      rw [Bool.and_comm, Bool.decide_and]
      rfl
    simp only [expected, matching_eq, if_pos hask]
    rw [countP_eq_length_filter, hsco]

theorem page_of (hp : context.principal = .ok principal) (hval : validate query = .ok valid)
    (hcursor : checked cursor parse_cursor = .ok after)
    (hpag : query_audit_trail self context (query.at_cursor cursor) trail = .ok page) :
    PageOf self principal query after trail page := by
  obtain ⟨page', hpag', hof⟩ := page_at_cursor self hp hval hcursor trail
  rwa [Except.ok.inj (hpag.symm.trans hpag')]

theorem PageOf.ends (h : PageOf self principal query after trail page)
    (hsiz : 0 < self.effective query) (hnone : page.next_cursor = none) :
    ¬ self.effective query < (fetch StoredEvent.position after (self.effective query + 1)
      (matching self principal query trail)).length := by
  intro hmor
  obtain ⟨-, last, hlas⟩ := shown_full hsiz hmor
  rw [h.next_cursor, if_pos hmor, hlas] at hnone
  simp at hnone

theorem PageOf.goes_on (h : PageOf self principal query after trail page)
    (hnex : page.next_cursor = some next) :
    self.effective query < (fetch StoredEvent.position after (self.effective query + 1)
        (matching self principal query trail)).length ∧
      ∃ last, (shown StoredEvent.position after (self.effective query)
          (matching self principal query trail)).getLast? = some last ∧
        last ∈ trail.rows ∧ checked next parse_cursor = .ok (some last.position) := by
  rw [h.next_cursor] at hnex
  split_ifs at hnex with hmor
  obtain ⟨last, hlas, rfl⟩ := Option.map_eq_some_iff.mp hnex
  have hmem : last ∈ trail.rows :=
    (mem_matching.mp (mem_shown (mem_of_getLast? hlas)).1).1
  refine ⟨hmor, last, hlas, hmem, ?_⟩
  -- The cursor is not the empty text, and what it says is the position.
  unfold checked non_empty
  rw [if_neg (by simpa using cursor_after_ne_nil last)]
  simp only [parse_cursor_after (trail.valid last hmem)]
  rfl

theorem next_page_ne_nil (hp : context.principal = .ok principal)
    (hval : validate query = .ok valid) (hsiz : 0 < self.effective query)
    (hcursor : checked cursor parse_cursor = .ok after)
    (hpag : query_audit_trail self context (query.at_cursor cursor) trail = .ok page)
    (hnex : page.next_cursor = some next) :
    ∃ page', query_audit_trail self context (query.at_cursor next) trail = .ok page' ∧
      page'.events ≠ [] := by
  obtain ⟨hmor, last, hlas, -, hche⟩ := (page_of hp hval hcursor hpag).goes_on hnex
  obtain ⟨page', hpag', hof⟩ := page_at_cursor self hp hval hche trail
  refine ⟨page', hpag', ?_⟩
  rw [hof.events, ne_eq, map_eq_nil_iff]
  exact cursor_leads (nodup_matching trail) hlas hmor hsiz

/-- The pages of a client that follows the cursors, the trail growing between the requests. -/
inductive Scrolls (self : AuditTrailService) (context : CallContext) (query : TrailQuery)
    (trails : ℕ → Trail) : ℕ → Text → List AuditPage → Prop
  | last {i : ℕ} {cursor : Text} {page : AuditPage} :
      query_audit_trail self context (query.at_cursor cursor) (trails i) = .ok page →
      page.next_cursor = none → Scrolls self context query trails i cursor [page]
  | more {i : ℕ} {cursor next : Text} {page : AuditPage} {pages : List AuditPage} :
      query_audit_trail self context (query.at_cursor cursor) (trails i) = .ok page →
      page.next_cursor = some next → Scrolls self context query trails (i + 1) next pages →
      Scrolls self context query trails i cursor (page :: pages)

noncomputable def tables (self : AuditTrailService) (principal : AuthenticatedPrincipal)
    (query : TrailQuery) (trails : ℕ → Trail) (i : ℕ) : List StoredEvent :=
  matching self principal query (trails i)

variable {trails : ℕ → Trail}

theorem Scrolls.rows (hp : context.principal = .ok principal)
    (hval : validate query = .ok valid) (hsiz : 0 < self.effective query)
    (h : Scrolls self context query trails i cursor pages) :
    ∀ {after : Option (ℤ ×ₗ ℤ)}, checked cursor parse_cursor = .ok after →
      ∃ rows, Scroll StoredEvent.position (self.effective query)
          (tables self principal query trails) i after rows ∧
        pages.map AuditPage.events = rows.map (List.map (entry_of self)) := by
  induction h with
  | @last i cursor page hpag hnone =>
    intro after hcursor
    have hof := page_of hp hval hcursor hpag
    exact ⟨_, .last (hof.ends hsiz hnone), by simp [hof.events, tables]⟩
  | @more i cursor next page pages hpag hnex hres ih =>
    intro after hcursor
    have hof := page_of hp hval hcursor hpag
    obtain ⟨hmor, last, hlas, -, hche⟩ := hof.goes_on hnex
    obtain ⟨rows, hrow, heve⟩ := ih hche
    refine ⟨_, .more hmor hlas hrow, ?_⟩
    rw [map_cons, map_cons, hof.events, heve]
    rfl

theorem Scrolls.of_rows (hp : context.principal = .ok principal)
    (hval : validate query = .ok valid) {rows : List (List StoredEvent)}
    (h : Scroll StoredEvent.position (self.effective query) (tables self principal query trails) i
      after rows) :
    ∀ {cursor : Text}, checked cursor parse_cursor = .ok after →
      ∃ pages, Scrolls self context query trails i cursor pages := by
  induction h with
  | @last i after hend =>
    intro cursor hcursor
    obtain ⟨page, hpag, hof⟩ := page_at_cursor self hp hval hcursor (trails i)
    exact ⟨[page], .last hpag (hof.next_cursor.trans (if_neg hend))⟩
  | @more i after last rows hmor hlas hres ih =>
    intro cursor hcursor
    obtain ⟨page, hpag, hof⟩ := page_at_cursor self hp hval hcursor (trails i)
    have hnex : page.next_cursor = some (cursor_after last) := by
      rw [hof.next_cursor]
      exact (if_pos hmor).trans (congrArg (Option.map cursor_after) hlas)
    obtain ⟨-, last', hlas', -, hche⟩ := hof.goes_on hnex
    obtain rfl := Option.some.inj (hlas.symm.trans hlas')
    obtain ⟨pages, hpages⟩ := ih hche
    exact ⟨page :: pages, .more hpag hnex hpages⟩

/-! ## What a scroll returns -/

def returned (pages : List AuditPage) : List AuditEntry := pages.flatMap AuditPage.events

theorem returned_eq {rows : List (List StoredEvent)}
    (h : pages.map AuditPage.events = rows.map (List.map (entry_of self))) :
    returned pages = rows.flatten.map (entry_of self) := by
  rw [returned, flatMap_def, h, map_flatten]

theorem nodup_tables (j : ℕ) :
    ((tables self principal query trails j).map StoredEvent.position).Nodup :=
  nodup_matching (trails j)

section Rows

variable {i : ℕ} {after : Option (ℤ ×ₗ ℤ)} {rows : List (List StoredEvent)}
  (h : Scroll StoredEvent.position (self.effective query) (tables self principal query trails) i
    after rows)
include h

variable {row : StoredEvent}

theorem scroll_stored (hrow : row ∈ rows.flatten) : ∃ j, row ∈ (trails j).rows ∧ row.Valid := by
  obtain ⟨j, -, hmem⟩ := h.sound row hrow
  have hsto := (mem_matching.mp hmem).1
  exact ⟨j, hsto, (trails j).valid row hsto⟩

theorem scroll_decreasing :
    (rows.flatten.map (entry_of self)).Pairwise fun a b => b.position < a.position := by
  rw [pairwise_map]
  refine (h.decreasing nodup_tables).imp_of_mem fun {a b} ha hb hlt => ?_
  obtain ⟨-, -, hval⟩ := scroll_stored h ha
  obtain ⟨-, -, hvali⟩ := scroll_stored h hb
  rwa [position_entry_of self hval, position_entry_of self hvali]

theorem scroll_ids_nodup (hgrows : ∀ i, (trails i).Grows (trails (i + 1))) :
    ((rows.flatten.map (entry_of self)).map AuditEntry.id).Nodup := by
  rw [map_map, List.Nodup, pairwise_map]
  refine (h.decreasing nodup_tables).imp_of_mem fun {a b} ha hb hlt heq => ?_
  obtain ⟨ja, hsto, hval⟩ := scroll_stored h ha
  obtain ⟨jb, hstor, hvali⟩ := scroll_stored h hb
  have hid : a.id = b.id := by
    have heq : a.id.toNat = b.id.toNat := heq
    have := hval.id_bigint.1
    have := hvali.id_bigint.1
    omega
  rw [position_of_id hgrows hsto hstor hid] at hlt
  exact lt_irrefl _ hlt

theorem scroll_complete (hgrows : ∀ i, (trails i).Grows (trails (i + 1))) (haft : after = none)
    {k : ℕ} (hrow : row ∈ (trails k).rows)
    (hmat : ∀ j, i ≤ j → j < i + rows.length → ∃ row' ∈ (trails j).rows,
      row'.id = row.id ∧ Matches self principal query row') :
    row.id.toNat ∈ (rows.flatten.map (entry_of self)).map AuditEntry.id := by
  have hpos : ∀ j, i ≤ j → j < i + rows.length →
      ∃ found ∈ tables self principal query trails j, found.position = row.position := by
    intro j hj hlt
    obtain ⟨row', hrow', hid, hmatc⟩ := hmat j hj hlt
    exact ⟨row', mem_matching.mpr ⟨hrow', hmatc⟩, position_of_id hgrows hrow' hrow hid⟩
  obtain ⟨found, hfou, hposi⟩ := h.complete nodup_tables (by simp [haft]) hpos
  rw [map_map]
  refine mem_map.mpr ⟨found, hfou, ?_⟩
  have hid : found.id = row.id := congrArg (fun p => (ofLex p).2) hposi
  rw [comp_apply, entry_of, hid]

end Rows

theorem scrolls_end (hp : context.principal = .ok principal) (hval : validate query = .ok valid)
    (hsiz : 0 < self.effective query) (hgrows : ∀ i, (trails i).Grows (trails (i + 1))) {bound : ℕ}
    (hbou : ∀ i, (trails i).rows.length ≤ bound) :
    ∃ pages, Scrolls self context query trails 0 [] pages := by
  have hnod : ∀ j, ((trails j).rows.map StoredEvent.position).Nodup :=
    fun j => nodup_positions (trails j).unique_id
  have hsta : ∀ j, (trails j).rows.map StoredEvent.position
      ⊆ (trails (j + 1)).rows.map StoredEvent.position := by
    intro j position hpos
    obtain ⟨row, hrow, rfl⟩ := mem_map.mp hpos
    obtain ⟨kept, hkep, hsam, -⟩ := (hgrows j).keeps hrow
    exact mem_map.mpr ⟨kept, hkep, hsam⟩
  have huse : ∀ j, ∀ row ∈ tables self principal query trails j,
      row.position ∈ (trails j).rows.map StoredEvent.position :=
    fun j row hrow => mem_map_of_mem (mem_matching.mp hrow).1
  have hlength : ∀ j, ((trails j).rows.map StoredEvent.position).length ≤ bound := by
    intro j
    rw [length_map]
    exact hbou j
  obtain ⟨rows, hrows⟩ := scroll_ends hsiz hnod hsta huse hlength 0 none
  exact Scrolls.of_rows hp hval hrows rfl

theorem first_page_counts (hp : context.principal = .ok principal)
    (hval : validate query = .ok valid) (hsiz : 0 < self.effective query)
    (h : Scrolls self context query (fun _ => trail) 0 [] pages) (hcou : query.counts = true) :
    ∃ first ∈ pages.head?, first.counts = some
      ⟨trail.rows.countP fun row => decide (Seen principal row ∧ InScope query row),
        (returned pages).length⟩ := by
  have hfir : ∃ first ∈ pages.head?,
      query_audit_trail self context (query.at_cursor []) trail = .ok first := by
    cases h with
    | last hpag _ => exact ⟨_, rfl, hpag⟩
    | more hpag _ _ => exact ⟨_, rfl, hpag⟩
  obtain ⟨first, hmem, hpag⟩ := hfir
  obtain ⟨rows, hrow, heve⟩ := h.rows hp hval hsiz rfl
  have hall : rows.flatten = remaining StoredEvent.position none
      (matching self principal query trail) := hrow.exact (nodup_matching trail)
  have hread : remaining StoredEvent.position none (matching self principal query trail)
      = descending StoredEvent.position (matching self principal query trail) := by
    rw [remaining, filter_eq_self.mpr fun row _ => before_none row]
  refine ⟨first, hmem, ?_⟩
  rw [(page_of hp hval rfl hpag).counts hcou rfl, returned_eq heve, length_map, hall,
    hread, (descending_perm _).length_eq]

end Pages

open Classical in
/-- **Audit paging is exact**, over a trail that only grows. -/
theorem paging_is_exact (self : AuditTrailService) (context : CallContext)
    (principal : AuthenticatedPrincipal) (query : TrailQuery) (valid : ValidQuery)
    (hp : context.principal = .ok principal) (hvalid : validate query = .ok valid)
    (hsize : 1 ≤ self.effective query) :
    (∀ trails : ℕ → Trail, (∀ i, (trails i).Grows (trails (i + 1))) →
      (∀ bound, (∀ i, (trails i).rows.length ≤ bound) →
        ∃ pages, Scrolls self context query trails 0 [] pages) ∧
      ∀ pages, Scrolls self context query trails 0 [] pages →
        (returned pages).Pairwise (fun a b => b.position < a.position) ∧
        ((returned pages).map AuditEntry.id).Nodup ∧
        (∀ row ∈ (trails 0).rows, (∀ i < pages.length, ∃ row' ∈ (trails i).rows,
            row'.id = row.id ∧ Matches self principal query row') →
          ((returned pages).map AuditEntry.id).count row.id.toNat = 1) ∧
        (∀ page ∈ pages.dropLast, page.events.length = self.effective query) ∧
        (∀ trail, (∀ i, trails i = trail) → query.counts = true →
          ∃ first ∈ pages.head?, first.counts = some
            ⟨trail.rows.countP fun row => decide (Seen principal row ∧ InScope query row),
              (returned pages).length⟩)) ∧
    (∀ cursor after trail page next, checked cursor parse_cursor = .ok after →
      query_audit_trail self context (query.at_cursor cursor) trail = .ok page →
      page.next_cursor = some next →
      ∃ page', query_audit_trail self context (query.at_cursor next) trail = .ok page' ∧
        page'.events ≠ []) ∧
    ∀ row : StoredEvent, row.Valid → parse_cursor (cursor_after row) = .ok row.position := by
  refine ⟨fun trails hgrows => ⟨fun bound hbou => ?_, fun pages hpages => ?_⟩,
    fun cursor after trail page next hcursor hpag hnex => ?_, fun row => parse_cursor_after⟩
  · exact scrolls_end hp hvalid hsize hgrows hbou
  · obtain ⟨rows, hrows, heve⟩ := hpages.rows hp hvalid hsize rfl
    have hret := returned_eq heve
    have hlength : pages.length = rows.length := by
      simpa using congrArg List.length heve
    refine ⟨?_, ?_, fun row hrow hmat => ?_, fun page hpag => ?_, fun trail hsam hcou => ?_⟩
    · rw [hret]
      exact scroll_decreasing hrows
    · rw [hret]
      exact scroll_ids_nodup hrows hgrows
    · rw [hret]
      refine count_eq_one_of_mem (scroll_ids_nodup hrows hgrows) ?_
      refine scroll_complete hrows hgrows rfl hrow fun j _ hj => hmat j ?_
      omega
    · -- Each page has as many events as its rows, and the last is the last of both.
      have hmem : page.events ∈ (rows.map (List.map (entry_of self))).dropLast := by
        rw [← heve, ← map_dropLast]
        exact mem_map_of_mem hpag
      rw [← map_dropLast] at hmem
      obtain ⟨rows', hrows', heq⟩ := mem_map.mp hmem
      rw [← heq, length_map]
      exact hrows.full hsize rows' hrows'
    · obtain rfl : trails = fun _ => trail := funext hsam
      exact first_page_counts hp hvalid hsize hpages hcou
  · exact next_page_ne_nil hp hvalid hsize hcursor hpag hnex

/-- A read of `/a` recorded in the trail. -/
def read_recorded (trail : Trail) (id : ℤ) (time : OffsetDateTime)
    (coalesce_digest : Option Text) : Trail :=
  (trail.insert_event id ⟨"operator".toList, none, "v5".toList⟩ time
    (.bare .SubtreeRead "/a".toList "operator read subtree /a (1 value)".toList)
    coalesce_digest).getD trail

theorem grows_read_recorded (trail : Trail) (id : ℤ) (time : OffsetDateTime)
    (digest : Option Text) : trail.Grows (read_recorded trail id time digest) := by
  unfold read_recorded
  cases h : Trail.insert_event trail id _ time _ digest with
  | none => exact .refl
  | some trail' => exact .insert .refl h

/-- Two reads are in the trail at the first page. After it the first of them is bumped, and an
earlier read arrives. -/
def reread (i : ℕ) : Trail :=
  if i = 0 then read_recorded (read_recorded .empty 1 0 (some ['d'])) 2 1000 none
  else read_recorded (read_recorded (read_recorded (read_recorded .empty 1 0 (some ['d'])) 2 1000
    none) 3 2000 (some ['d'])) 4 (-1000) none

def one_by_one : TrailQuery := { everything with page_size := 1 }

theorem reread_grows (i : ℕ) : (reread i).Grows (reread (i + 1)) := by
  cases i with
  | zero =>
    exact (grows_read_recorded (reread 0) 3 2000 (some ['d'])).trans
      (grows_read_recorded _ 4 (-1000) none)
  | succ i => exact .refl

theorem reread_visible (i : ℕ) :
    ∀ row ∈ (reread i).rows, visible operator_principal row = true := by
  cases i with
  | zero => decide +kernel
  | succ i =>
    show ∀ row ∈ (reread 1).rows, visible operator_principal row = true
    decide +kernel

/-- Two cursors are followed while the trail grows. Both reads of the first page's trail are
returned once, the bumped one too. -/
theorem paging_is_exact_while_reread :
    operator.principal = .ok operator_principal ∧ (∀ i, (reread i).Grows (reread (i + 1))) ∧
      ∃ pages, Scrolls plain_service operator one_by_one reread 0 [] pages ∧
        (returned pages).map AuditEntry.id = [2, 1, 4] ∧
        ∀ row ∈ (reread 0).rows, ((returned pages).map AuditEntry.id).count row.id.toNat = 1 := by
  have hval : validate one_by_one = .ok ⟨none, none, none, none, none, none, none, [], none⟩ := rfl
  obtain ⟨hscr, -, -⟩ := paging_is_exact plain_service operator operator_principal one_by_one _
    rfl hval (by decide)
  have hpages : ∃ pages, Scrolls plain_service operator one_by_one reread 0 [] pages ∧
      (returned pages).map AuditEntry.id = [2, 1, 4] :=
    ⟨_, .more rfl rfl (.more rfl rfl (.last rfl rfl)), rfl⟩
  obtain ⟨pages, hpag, hids⟩ := hpages
  obtain ⟨-, -, honc, -⟩ := (hscr reread reread_grows).2 pages hpag
  refine ⟨rfl, reread_grows, pages, hpag, hids, fun row hrow => honc row hrow fun i _ => ?_⟩
  obtain ⟨row', hrow', -, hid⟩ := (grows_le reread_grows (Nat.zero_le i)).keeps hrow
  refine ⟨row', hrow', hid, Or.inl (reread_visible i row' hrow'), fun h => absurd rfl h, ?_⟩
  constructor <;> simp [one_by_one, everything]

end SovereignConfig.Audit
