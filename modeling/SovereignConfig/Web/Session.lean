/-
The tokens of the browser page (`session.rs`, `MemoryAuthentication::access_token`). What stands
between two awaits is one step. A refresh in flight holds the tokens and leaves the slot empty.
Times are rational milliseconds.
-/
import SovereignConfig.Client
import SovereignConfig.Lib.Call

namespace SovereignConfig.Web

open Lib Function

/-! ## The page -/

structure MemoryTokens where
  access_token : Text
  refresh_token : Text
  access_expires_at_ms : ℚ
  refresh_expires_at_ms : ℚ
  token_endpoint : Text
deriving DecidableEq

structure PersistedToken where
  refresh_token : Text
  token_endpoint : Text
  expires_at : ℚ
deriving DecidableEq

structure SessionStorage where
  refresh : Option PersistedToken
  identity_name : Option Text
deriving DecidableEq

structure Page where
  /-- `TOKENS`. -/
  tokens : Option MemoryTokens
  storage : Option SessionStorage
  /-- `Date::now()`. -/
  now : ℚ
deriving DecidableEq

namespace Page

def store_identity_name (self : Page) (name : Option Text) : Page :=
  { self with storage := self.storage.map fun storage => { storage with identity_name := name } }

def persist_refresh_token (self : Page) (tokens : MemoryTokens) : Page :=
  { self with storage := self.storage.map fun storage => { storage with
      refresh := some ⟨tokens.refresh_token, tokens.token_endpoint, tokens.refresh_expires_at_ms⟩ } }

def clear_persisted_refresh_token (self : Page) : Page :=
  { self with storage := self.storage.map fun _ => ⟨none, none⟩ }

def clear_browser_session (self : Page) : Page :=
  { self with tokens := none }.clear_persisted_refresh_token

/-- After a refused export: the token is treated as expired, if it is still the one that
was refused (`telemetry/mod.rs`). -/
def mark_token_stale (self : Page) (refused_expiry_ms : ℚ) : Page :=
  { self with tokens := self.tokens.map fun tokens =>
      if |tokens.access_expires_at_ms - refused_expiry_ms| < 1 / 2 ^ 52 then
        { tokens with access_expires_at_ms := 0 }
      else tokens }

def persisted (self : Page) : Option PersistedToken := self.storage.bind (·.refresh)

end Page

/-! ## A refresh -/

def browser_error : ClientError := ⟨.Internal, "browser operation failed"⟩
def oidc_error : ClientError := ⟨.Unavailable, "identity provider is unavailable"⟩
/-- `map_rpc_status(RpcCode::Unavailable)`. -/
def unreachable_error : ClientError := ⟨.Unavailable, "service is unavailable"⟩

/-- The properties of a token response, each when it is there and of its type; texts are
not empty. -/
structure TokenResponse where
  access_token : Option Text
  refresh_token : Option Text
  expires_in : Option ℚ
  identity_name : Option Text
deriving DecidableEq

inductive RefreshReply where
  /-- The browser could not build or send the request. -/
  | unsent
  /-- The request got no response. -/
  | unreachable
  /-- A response that is not `ok`, with the OAuth error of its body. -/
  | refused (status : ℕ) (oauth_error : Option String)
  /-- A response whose body is not JSON. -/
  | unreadable
  | answered (json : TokenResponse)
deriving DecidableEq

def classify_refresh_error (status : ℕ) (oauth_error : Option String) : ClientError :=
  if status = 400 ∧ oauth_error = some "invalid_grant" then
    ⟨.Unauthenticated, "login has expired"⟩
  else oidc_error

def expires_in (json : TokenResponse) : ℚ :=
  min ((json.expires_in.filter fun value => decide (0 < value)).getD 300) 300

structure Refreshed where
  tokens : MemoryTokens
  identity_name : Option Text
deriving DecidableEq

def refresh_tokens (now : ℚ) (current : MemoryTokens) : RefreshReply → Except ClientError Refreshed
  | .unsent => .error browser_error
  | .unreachable => .error unreachable_error
  | .refused status oauth_error => .error (classify_refresh_error status oauth_error)
  | .unreadable => .error oidc_error
  | .answered json =>
    match json.access_token, json.refresh_token with
    | some access_token, some refresh_token =>
      .ok ⟨⟨access_token, refresh_token, now + expires_in json * 1000,
        current.refresh_expires_at_ms, current.token_endpoint⟩, json.identity_name⟩
    | _, _ => .error oidc_error

/-! ## `access_token` -/

inductive Began where
  | returned (token : Option Text)
  | refreshing (tokens : MemoryTokens)
deriving DecidableEq

def begin_access (page : Page) : Began × Page :=
  match page.tokens with
  | none => (.returned none, page)
  | some tokens =>
    if page.now < tokens.access_expires_at_ms then
      (.returned (some tokens.access_token), { page with tokens := some tokens })
    else if tokens.refresh_expires_at_ms ≤ page.now then
      (.returned none, { page with tokens := none }.clear_persisted_refresh_token)
    else (.refreshing tokens, { page with tokens := none })

def finish_refresh (page : Page) (tokens : MemoryTokens) (reply : RefreshReply) : Page :=
  match refresh_tokens page.now tokens reply with
  | .ok refreshed =>
    let page := match refreshed.identity_name with
      | some name => page.store_identity_name (some name)
      | none => page
    { page.persist_refresh_token refreshed.tokens with tokens := some refreshed.tokens }
  | .error error =>
    if error.kind = .Unavailable then { page with tokens := some tokens }
    else page.clear_persisted_refresh_token

def access_result (refreshed : Except ClientError Refreshed) : Except ClientError (Option Text) :=
  refreshed.map fun refreshed => some refreshed.tokens.access_token

/-! ## Calls at their await points -/

inductive Request where
  | take
  | refresh (tokens : MemoryTokens)
  | clear

abbrev Answer : Request → Type
  | .take => Began
  | .refresh _ => RefreshReply × ℚ
  | .clear => Unit

abbrev PageCall := Call Request Answer ClientError (Option Text)

def refreshing (tokens : MemoryTokens) : PageCall :=
  .ask (.refresh tokens) fun (reply, now) => .done (access_result (refresh_tokens now tokens reply))

def after_began : Began → PageCall
  | .returned token => .done (.ok token)
  | .refreshing tokens => refreshing tokens

def access_token : PageCall := .ask .take after_began

def logout : PageCall := .ask .clear fun _ => .done (.ok none)

def page_system (ι : Type) : System ι Page Request Answer where
  serve _ request page answer page' :=
    match request, answer with
    | .take, began => (began, page') = begin_access page
    | .refresh tokens, (reply, now) => now = page.now ∧ page' = finish_refresh page tokens reply
    | .clear, () => page' = page.clear_browser_session
  crash _ _ _ := False
  idle page page' := (∃ now, page' = { page with now }) ∨ ∃ expiry, page' = page.mark_token_stale expiry

abbrev PageConfig (ι : Type) := Config ι Page Request Answer ClientError (Option Text)

inductive Stands : PageCall → Prop
  | unstarted : Stands access_token
  | in_flight (tokens : MemoryTokens) : Stands (refreshing tokens)
  | leaving : Stands logout
  | returned (result : Except ClientError (Option Text)) : Stands (.done result)

variable {ι : Type} [DecidableEq ι]

def PageConfig.start (c : PageConfig ι) (i : ι) : PageConfig ι :=
  ⟨(begin_access c.world).2, update c.pool i (.live (after_began (begin_access c.world).1))⟩

def PageConfig.answer (c : PageConfig ι) (i : ι) (tokens : MemoryTokens) (reply : RefreshReply) :
    PageConfig ι :=
  ⟨finish_refresh c.world tokens reply, update c.pool i
    (.live (.done (access_result (refresh_tokens c.world.now tokens reply))))⟩

def PageConfig.leave (c : PageConfig ι) (i : ι) : PageConfig ι :=
  ⟨c.world.clear_browser_session, update c.pool i (.live (.done (.ok none)))⟩

variable {c c' c₀ : PageConfig ι} {i : ι} {tokens : MemoryTokens} {l : Label ι Request Answer}
  {page : Page} {reply : RefreshReply} {x : PageCall}
  {cond : Page → Label ι Request Answer → Page → Prop}

theorem step_start (h : c.pool i = .live access_token) :
    Step (page_system ι) c (.asked i .take (begin_access c.world).1) (c.start i) :=
  Step.asked h rfl

theorem step_answer (h : c.pool i = .live (refreshing tokens)) (reply : RefreshReply) :
    Step (page_system ι) c (.asked i (.refresh tokens) (reply, c.world.now))
      (c.answer i tokens reply) := by
  have hser : (page_system ι).serve i (.refresh tokens) c.world (reply, c.world.now)
      (finish_refresh c.world tokens reply) := ⟨rfl, rfl⟩
  exact Step.asked h hser

theorem step_leave (h : c.pool i = .live logout) :
    Step (page_system ι) c (.asked i .clear ()) (c.leave i) :=
  Step.asked (a := ()) h rfl

/-- **One step of the page**: a call starts, a refresh is answered, the page logs out, or the
page moves on its own. -/
theorem step_cases (hsta : ∀ i, ∃ x, c.pool i = .live x ∧ Stands x)
    (h : Step (page_system ι) c l c') :
    (∃ i, c.pool i = .live access_token ∧ l = .asked i .take (begin_access c.world).1 ∧
      c' = c.start i) ∨
    (∃ i tokens reply, c.pool i = .live (refreshing tokens) ∧
      l = .asked i (.refresh tokens) (reply, c.world.now) ∧ c' = c.answer i tokens reply) ∨
    (∃ i, c.pool i = .live logout ∧ l = .asked i .clear () ∧ c' = c.leave i) ∨
    (l = .idled ∧ ∃ page, (page_system ι).idle c.world page ∧ c' = ⟨page, c.pool⟩) := by
  cases h with
  | @asked i q k a w hi hser =>
    obtain ⟨x, hx, hs⟩ := hsta i
    obtain rfl := Thread.live.inj (hx.symm.trans hi)
    cases hs with
    | unstarted =>
      have hpai : (a, w) = begin_access c.world := hser
      refine Or.inl ⟨i, hi, ?_, ?_⟩
      · rw [← hpai]
      · rw [PageConfig.start, ← hpai]
    | in_flight tokens =>
      obtain ⟨reply, now⟩ := a
      obtain ⟨rfl, rfl⟩ := hser
      exact Or.inr (Or.inl ⟨i, tokens, reply, hi, rfl, rfl⟩)
    | leaving =>
      obtain rfl : w = c.world.clear_browser_session := hser
      exact Or.inr (Or.inr (Or.inl ⟨i, hi, rfl, rfl⟩))
  | crashed _ hcra => exact hcra.elim
  | @idled w hidl => exact Or.inr (Or.inr (Or.inr ⟨rfl, w, hidl, rfl⟩))

def rejected (now : ℚ) (tokens : MemoryTokens) (reply : RefreshReply) : Bool :=
  match refresh_tokens now tokens reply with
  | .ok _ => false
  | .error error => decide (error.kind ≠ .Unavailable)

theorem finish_rejected (h : rejected page.now tokens reply = true) :
    finish_refresh page tokens reply = page.clear_persisted_refresh_token := by
  unfold rejected at h
  unfold finish_refresh
  split at h
  · simp at h
  · exact if_neg (of_decide_eq_true h)

theorem finish_not_rejected (h : rejected page.now tokens reply = false) :
    (finish_refresh page tokens reply).tokens.isSome = true := by
  unfold rejected at h
  unfold finish_refresh
  split at h
  · rfl
  · simp only [decide_eq_false_iff_not, not_not] at h
    rw [if_pos h]
    rfl

theorem access_token_ne_refreshing (tokens : MemoryTokens) : access_token ≠ refreshing tokens :=
  nofun

theorem access_token_ne_logout : access_token ≠ logout := nofun

/-! ## Logging out -/

def RefreshesRejected (_ : Page) (l : Label ι Request Answer) (_ : Page) : Prop :=
  ∀ i tokens reply now, l = .asked i (.refresh tokens) (reply, now) →
    rejected now tokens reply = true

/-- The page is logged out: nothing in the slot, nothing in the storage, and no call that was
not started in `c₀` has returned a token. -/
structure LoggedOut (c₀ c : PageConfig ι) : Prop where
  slot : c.world.tokens = none
  stored : c.world.persisted = none
  later : ∀ i token, c₀.pool i = .live access_token → c.pool i ≠ .live (.done (.ok (some token)))

structure Out (c₀ c : PageConfig ι) : Prop where
  slot : c.world.tokens = none
  stored : c.world.persisted = none
  stands : ∀ i, ∃ x, c.pool i = .live x ∧ Stands x
  later : ∀ i, c₀.pool i = .live access_token →
    c.pool i = .live access_token ∨ c.pool i = .live (.done (.ok none))

omit [DecidableEq ι] in
theorem Out.logged_out (h : Out c₀ c) : LoggedOut c₀ c where
  slot := h.slot
  stored := h.stored
  later i token hi hdon := by
    rcases h.later i hi with hc | hc
    · exact absurd (Thread.live.inj (hc.symm.trans hdon)) nofun
    · exact absurd (Thread.live.inj (hc.symm.trans hdon)) (by simp)

theorem persisted_clear (page : Page) : page.clear_persisted_refresh_token.persisted = none := by
  unfold Page.persisted Page.clear_persisted_refresh_token
  cases page.storage with
  | none => rfl
  | some storage => rfl

theorem begin_access_empty (h : page.tokens = none) :
    begin_access page = (.returned none, page) := by
  unfold begin_access
  rw [h]

theorem stands_update {pool : ι → Thread Request Answer ClientError (Option Text)}
    (h : ∀ i, ∃ x, pool i = .live x ∧ Stands x) (hx : Stands x) (j : ι) :
    ∃ y, update pool i (.live x) j = .live y ∧ Stands y := by
  by_cases hj : j = i
  · subst hj
    exact ⟨x, update_self .., hx⟩
  · rw [update_of_ne hj]
    exact h j

theorem later_update (h : Out c₀ c) {y : PageCall} (hi : c.pool i = .live x)
    (hsta : access_token ≠ x) (hdon : x ≠ .done (.ok none)) (j : ι)
    (hj : c₀.pool j = .live access_token) :
    update c.pool i (.live y) j = .live access_token ∨
      update c.pool i (.live y) j = .live (.done (.ok none)) := by
  have hne : j ≠ i := by
    rintro rfl
    rcases h.later j hj with hc | hc
    · exact hsta (Thread.live.inj (hc.symm.trans hi))
    · exact hdon (Thread.live.inj (hi.symm.trans hc))
  rw [update_of_ne hne]
  exact h.later j hj

theorem Out.step (h : Out c₀ c) (hste : Step (page_system ι) c l c')
    (hrej : RefreshesRejected c.world l c'.world) : Out c₀ c' := by
  rcases step_cases h.stands hste with ⟨i, hi, rfl, rfl⟩ | ⟨i, tokens, reply, hi, rfl, rfl⟩
    | ⟨i, hi, rfl, rfl⟩ | ⟨rfl, page, hidl, rfl⟩
  · -- A call starts: the slot is empty.
    have hbeg := begin_access_empty h.slot
    rw [PageConfig.start, hbeg]
    refine ⟨h.slot, h.stored, stands_update h.stands (.returned _), fun j hj => ?_⟩
    by_cases hji : j = i
    · subst hji
      exact Or.inr (update_self ..)
    · show update c.pool i _ j = _ ∨ update c.pool i _ j = _
      rw [update_of_ne hji]
      exact h.later j hj
  · -- A refresh ends: it was rejected, and only the storage is cleared again.
    have hfin := finish_rejected (hrej i tokens reply _ rfl)
    refine ⟨?_, ?_, stands_update h.stands (.returned _),
      later_update h hi (access_token_ne_refreshing tokens) nofun⟩
    · show (finish_refresh c.world tokens reply).tokens = none
      rw [hfin]
      exact h.slot
    · show (finish_refresh c.world tokens reply).persisted = none
      rw [hfin]
      exact persisted_clear c.world
  · exact ⟨rfl, persisted_clear _, stands_update h.stands (.returned _),
      later_update h hi access_token_ne_logout nofun⟩
  · rcases hidl with ⟨now, rfl⟩ | ⟨expiry, rfl⟩
    · exact ⟨h.slot, h.stored, h.stands, h.later⟩
    · refine ⟨?_, h.stored, h.stands, h.later⟩
      show c.world.tokens.map _ = none
      rw [h.slot, Option.map_none]

/-- **Logging out is final as long as no refresh comes back.** -/
theorem logout_is_final_iff {c₀ : PageConfig ι} {page : Page}
    (hstands : ∀ i, ∃ x, c₀.pool i = .live x ∧ Stands x)
    (hclear : c₀.world = page.clear_browser_session) :
    (∀ c, Reach (page_system ι) RefreshesRejected c₀ c → LoggedOut c₀ c) ∧
    ∀ c l c', Reach (page_system ι) RefreshesRejected c₀ c → Step (page_system ι) c l c' →
      ¬ RefreshesRejected c.world l c'.world → ¬ LoggedOut c₀ c' := by
  have hout : ∀ c, Reach (page_system ι) RefreshesRejected c₀ c → Out c₀ c := by
    intro c hrea
    induction hrea with
    | refl =>
      refine ⟨?_, ?_, hstands, fun i hi => Or.inl hi⟩
      · rw [hclear]
        rfl
      · rw [hclear]
        exact persisted_clear _
    | step _ hste hcon ih => exact ih.step hste hcon
  refine ⟨fun c hrea => (hout c hrea).logged_out, fun c l c' hrea hste hbro hlog => ?_⟩
  -- The step that breaks the condition is the answer to a refresh, and it fills the slot.
  unfold RefreshesRejected at hbro
  push Not at hbro
  obtain ⟨i, tokens, reply, now, rfl, hrep⟩ := hbro
  rcases step_cases (hout c hrea).stands hste with ⟨_, _, hl, _⟩ | ⟨_, _, _, _, hl, rfl⟩
    | ⟨_, _, hl, _⟩ | ⟨hl, _⟩
  · simp at hl
  · simp only [Label.asked.injEq, Request.refresh.injEq] at hl
    obtain ⟨rfl, rfl, heq⟩ := hl
    obtain ⟨rfl, rfl⟩ := Prod.mk.inj (eq_of_heq heq)
    have hsom := finish_not_rejected (Bool.eq_false_of_not_eq_true hrep)
    rw [show (finish_refresh c.world tokens reply).tokens = none from hlog.slot] at hsom
    simp at hsom
  · simp at hl
  · simp at hl

/-! ## A live session -/

/-- The call waits for the answer to its refresh. -/
def InFlight (c : PageConfig ι) (i : ι) : Prop := ∃ tokens, c.pool i = .live (refreshing tokens)

def NoneRejected (_ : Page) (l : Label ι Request Answer) (_ : Page) : Prop :=
  ∀ i tokens reply now, l = .asked i (.refresh tokens) (reply, now) →
    rejected now tokens reply = false

/-- The tokens held are not both expired. -/
def SlotLive (page : Page) : Prop :=
  ∃ tokens, page.tokens = some tokens ∧
    (page.now < tokens.access_expires_at_ms ∨ page.now < tokens.refresh_expires_at_ms)

/-- No refresh is rejected, and each call starts while the tokens are live. -/
def StartsLive (page : Page) (l : Label ι Request Answer) (page' : Page) : Prop :=
  NoneRejected page l page' ∧ ∀ i began, l = .asked i .take began → SlotLive page

def TokenOrUnavailable (result : Except ClientError (Option Text)) : Prop :=
  (∃ token, result = .ok (some token)) ∨ ∃ error, result = .error error ∧ error.kind = .Unavailable

omit [DecidableEq ι] in
theorem starts_live {page' : Page} {began : Began} (h : SlotLive page) :
    StartsLive page (.asked i .take began) page' :=
  ⟨nofun, fun _ _ _ => h⟩

structure OneRefresh (c : PageConfig ι) : Prop where
  stands : ∀ i, ∃ x, c.pool i = .live x ∧ Stands x
  empty : ∀ i, InFlight c i → c.world.tokens = none
  one : ∀ i j, InFlight c i → InFlight c j → i = j

theorem begin_access_cases (page : Page) :
    (∃ token, begin_access page = (.returned (some token), page) ∧ SlotLive page) ∨
    (∃ tokens, begin_access page = (.refreshing tokens, { page with tokens := none }) ∧
      page.tokens = some tokens ∧ SlotLive page) ∨
    (∃ page', begin_access page = (.returned none, page') ∧ ¬ SlotLive page ∧
      page'.tokens = none) := by
  obtain ⟨slot, storage, now⟩ := page
  cases slot with
  | none => exact Or.inr (Or.inr ⟨_, rfl, fun ⟨_, h, _⟩ => absurd h (by simp), rfl⟩)
  | some tokens =>
    unfold begin_access
    by_cases hacc : now < tokens.access_expires_at_ms
    · exact Or.inl ⟨_, if_pos hacc, tokens, rfl, Or.inl hacc⟩
    · by_cases href : tokens.refresh_expires_at_ms ≤ now
      · refine Or.inr (Or.inr ⟨_, (if_neg hacc).trans (if_pos href), ?_, rfl⟩)
        rintro ⟨tokens', h, hliv⟩
        obtain rfl := Option.some.inj h
        exact hliv.elim hacc (not_lt.mpr href)
      · exact Or.inr (Or.inl ⟨tokens, (if_neg hacc).trans (if_neg href), rfl,
          tokens, rfl, Or.inr (not_le.mp href)⟩)

theorem in_flight_update {j : ι} (h : InFlight ⟨page, update c.pool i (.live x)⟩ j) :
    (j = i ∧ ∃ tokens, x = refreshing tokens) ∨ (j ≠ i ∧ InFlight c j) := by
  obtain ⟨tokens, hj⟩ := h
  have hupd : update c.pool i (.live x) j = .live (refreshing tokens) := hj
  by_cases hji : j = i
  · subst hji
    rw [update_self] at hupd
    exact Or.inl ⟨rfl, tokens, Thread.live.inj hupd⟩
  · rw [update_of_ne hji] at hupd
    exact Or.inr ⟨hji, tokens, hupd⟩

theorem done_not_refreshing (result : Except ClientError (Option Text)) :
    ¬ ∃ tokens, Call.done result = refreshing tokens := fun ⟨_, h⟩ => nomatch h

theorem OneRefresh.returned (h : OneRefresh c) {result : Except ClientError (Option Text)}
    (hemp : ∀ j, j ≠ i → InFlight c j → page.tokens = none) :
    OneRefresh ⟨page, update c.pool i (.live (.done result))⟩ where
  stands := stands_update h.stands (.returned result)
  empty j hj := by
    rcases in_flight_update hj with ⟨_, hx⟩ | ⟨hji, hj⟩
    · exact absurd hx (done_not_refreshing result)
    · exact hemp j hji hj
  one j k hj hk := by
    rcases in_flight_update hj with ⟨_, hx⟩ | ⟨_, hj⟩
    · exact absurd hx (done_not_refreshing result)
    · rcases in_flight_update hk with ⟨_, hx⟩ | ⟨_, hk⟩
      · exact absurd hx (done_not_refreshing result)
      · exact h.one j k hj hk

theorem OneRefresh.step (h : OneRefresh c) (hste : Step (page_system ι) c l c') :
    OneRefresh c' := by
  rcases step_cases h.stands hste with ⟨i, hi, rfl, rfl⟩ | ⟨i, tokens, reply, hi, rfl, rfl⟩
    | ⟨i, hi, rfl, rfl⟩ | ⟨rfl, page, hidl, rfl⟩
  · rcases begin_access_cases c.world with ⟨token, hbeg, hliv⟩ | ⟨tokens, hbeg, hslo, hliv⟩
      | ⟨page', hbeg, hdea, hnone⟩
    · rw [PageConfig.start, hbeg]
      exact h.returned fun j _ hj => h.empty j hj
    · -- The slot held tokens, so no other refresh was in flight.
      have hnob : ∀ j, ¬ InFlight c j := fun j hj =>
        absurd ((h.empty j hj).symm.trans hslo) (by simp)
      rw [PageConfig.start, hbeg]
      refine ⟨stands_update h.stands (.in_flight tokens), fun _ _ => rfl, fun j k hj hk => ?_⟩
      rcases in_flight_update hj with ⟨rfl, _⟩ | ⟨_, hj⟩
      · rcases in_flight_update hk with ⟨rfl, _⟩ | ⟨_, hk⟩
        · rfl
        · exact absurd hk (hnob k)
      · exact absurd hj (hnob j)
    · rw [PageConfig.start, hbeg]
      exact h.returned fun _ _ _ => hnone
  · -- The one refresh in flight ends.
    refine h.returned fun j hji hj => ?_
    exact absurd (h.one j i hj ⟨tokens, hi⟩) hji
  · exact h.returned fun _ _ _ => rfl
  · refine ⟨h.stands, fun j hj => ?_, h.one⟩
    have hslo := h.empty j hj
    rcases hidl with ⟨now, rfl⟩ | ⟨expiry, rfl⟩
    · exact hslo
    · show c.world.tokens.map _ = none
      rw [hslo, Option.map_none]

theorem one_refresh_reach (hpoo : ∀ i, c₀.pool i = .live access_token)
    (h : Reach (page_system ι) cond c₀ c) : OneRefresh c := by
  induction h with
  | refl =>
    have hnob : ∀ i, ¬ InFlight c₀ i := fun i ⟨tokens, hi⟩ =>
      access_token_ne_refreshing tokens (Thread.live.inj ((hpoo i).symm.trans hi))
    exact ⟨fun i => ⟨_, hpoo i, .unstarted⟩, fun i hi => absurd hi (hnob i),
      fun i _ hi => absurd hi (hnob i)⟩
  | step _ hste _ ih => exact ih.step hste

theorem result_not_rejected {now : ℚ} (h : rejected now tokens reply = false) :
    TokenOrUnavailable (access_result (refresh_tokens now tokens reply)) := by
  unfold rejected at h
  split at h
  · rename_i refreshed hok
    rw [hok]
    exact Or.inl ⟨_, rfl⟩
  · rename_i error herr
    rw [herr]
    exact Or.inr ⟨error, rfl, by simpa using h⟩

/-- Every call that is over has a token, or the service was unavailable. -/
def AllAnswered (c : PageConfig ι) : Prop :=
  ∀ i result, c.pool i = .live (.done result) → TokenOrUnavailable result

theorem allAnswered_update (h : AllAnswered c)
    (hx : ∀ result, x = .done result → TokenOrUnavailable result) :
    AllAnswered ⟨page, update c.pool i (.live x)⟩ := by
  intro j result hj
  have hupd : update c.pool i (.live x) j = .live (.done result) := hj
  by_cases hji : j = i
  · subst hji
    rw [update_self] at hupd
    exact hx result (Thread.live.inj hupd)
  · rw [update_of_ne hji] at hupd
    exact h j result hupd

theorem AllAnswered.step (h : AllAnswered c) (hsta : ∀ i, ∃ x, c.pool i = .live x ∧ Stands x)
    (hstay : ∀ i, c.pool i ≠ .live logout) (hste : Step (page_system ι) c l c')
    (hcon : StartsLive c.world l c'.world) : AllAnswered c' := by
  rcases step_cases hsta hste with ⟨i, hi, rfl, rfl⟩ | ⟨i, tokens, reply, hi, rfl, rfl⟩
    | ⟨i, hi, rfl, rfl⟩ | ⟨rfl, page, hidl, rfl⟩
  · refine allAnswered_update h fun result hres => ?_
    rcases begin_access_cases c.world with ⟨token, hbeg, _⟩ | ⟨tokens, hbeg, _⟩
      | ⟨page', _, hdea, _⟩
    · rw [hbeg] at hres
      exact Or.inl ⟨token, (Call.done.inj hres).symm⟩
    · rw [hbeg] at hres
      exact absurd hres nofun
    · exact absurd (hcon.2 i _ rfl) hdea
  · refine allAnswered_update h fun result hres => ?_
    rw [← Call.done.inj hres]
    exact result_not_rejected (hcon.1 i tokens reply _ rfl)
  · exact absurd hi (hstay i)
  · exact h

theorem stays_reach (hpoo : ∀ i, c₀.pool i = .live access_token)
    (h : Reach (page_system ι) cond c₀ c) (i : ι) : c.pool i ≠ .live logout := by
  induction h generalizing i with
  | refl =>
    rw [hpoo i]
    exact fun h => access_token_ne_logout (Thread.live.inj h)
  | @step c c' l hrea hste _ ih =>
    have hupd : ∀ (j : ι) (x : PageCall), x ≠ logout →
        update c.pool j (.live x) i ≠ .live logout := by
      intro j x hx
      by_cases hij : i = j
      · subst hij
        rw [update_self]
        exact fun h => hx (Thread.live.inj h)
      · rw [update_of_ne hij]
        exact ih i
    rcases step_cases (one_refresh_reach hpoo hrea).stands hste with ⟨j, _, _, rfl⟩
      | ⟨j, _, _, _, _, rfl⟩ | ⟨j, _, _, rfl⟩ | ⟨_, _, _, rfl⟩
    · refine hupd j _ ?_
      cases (begin_access c.world).1 with
      | returned token => exact nofun
      | refreshing tokens => exact nofun
    · exact hupd j _ nofun
    · exact hupd j _ nofun
    · exact ih i

/-- **A live session answers the calls that find its tokens in the slot.** -/
theorem live_session_answers_iff {c₀ : PageConfig ι}
    (hpool : ∀ i, c₀.pool i = .live access_token) :
    (∀ c, Reach (page_system ι) NoneRejected c₀ c →
      (∀ i j, InFlight c i → InFlight c j → i = j) ∧ ∀ i, InFlight c i → ¬ SlotLive c.world) ∧
    (∀ c, Reach (page_system ι) StartsLive c₀ c → AllAnswered c) ∧
    ∀ c i began c', Reach (page_system ι) NoneRejected c₀ c →
      Step (page_system ι) c (.asked i .take began) c' → ¬ SlotLive c.world →
      c'.pool i = .live (.done (.ok none)) := by
  refine ⟨fun c hrea => ?_, fun c hrea => ?_, fun c i began c' hrea hste hdea => ?_⟩
  · have hone := one_refresh_reach hpool hrea
    refine ⟨hone.one, fun i hi => ?_⟩
    rintro ⟨tokens, hslo, _⟩
    exact absurd ((hone.empty i hi).symm.trans hslo) (by simp)
  · induction hrea with
    | refl =>
      intro i result hi
      exact absurd (Thread.live.inj ((hpool i).symm.trans hi)) nofun
    | step hrea hste hcon ih =>
      exact ih.step (one_refresh_reach hpool hrea).stands (stays_reach hpool hrea) hste hcon
  · rcases step_cases (one_refresh_reach hpool hrea).stands hste with ⟨j, _, hl, rfl⟩
      | ⟨_, _, _, _, hl, _⟩ | ⟨_, _, hl, _⟩ | ⟨hl, _⟩
    · obtain rfl : i = j := by
        simp only [Label.asked.injEq] at hl
        exact hl.1
      rcases begin_access_cases c.world with ⟨_, _, hliv⟩ | ⟨_, _, _, hliv⟩ | ⟨_, hbeg, _⟩
      · exact absurd hliv hdea
      · exact absurd hliv hdea
      · rw [PageConfig.start, hbeg]
        exact update_self ..
    · simp at hl
    · simp at hl
    · simp at hl

/-! ## Two runs -/

def sample_tokens : MemoryTokens := ⟨['a'], ['r'], 0, 1000, ['t']⟩

def sample_page : Page := ⟨some sample_tokens, some ⟨some ⟨['r'], ['t'], 1000⟩, none⟩, 10⟩

def sample_reply : RefreshReply := .answered ⟨some ['b'], some ['s'], none, none⟩

def refreshed_tokens : MemoryTokens := ⟨['b'], ['s'], 10 + 300 * 1000, 1000, ['t']⟩

def leaving_pool : PageConfig (Fin 3) :=
  ⟨sample_page, fun i => if i = 1 then .live logout else .live access_token⟩

def calling_pool : PageConfig (Fin 2) := ⟨sample_page, fun _ => .live access_token⟩

def left_pool : PageConfig (Fin 3) := (leaving_pool.start 0).leave 1

/-- A refresh in flight is refused after the logout: the page stays logged out. -/
theorem logout_final_when_refused :
    left_pool.pool 0 = .live (refreshing sample_tokens) ∧
      LoggedOut left_pool (left_pool.answer 0 sample_tokens (.refused 400 (some "invalid_grant"))) := by
  have hpoo : left_pool.pool 0 = .live (refreshing sample_tokens) := rfl
  have hsta : ∀ i, ∃ x, left_pool.pool i = .live x ∧ Stands x := by
    intro i
    fin_cases i
    · exact ⟨_, hpoo, .in_flight _⟩
    · exact ⟨_, rfl, .returned _⟩
    · exact ⟨_, rfl, .unstarted⟩
  refine ⟨hpoo, (logout_is_final_iff hsta rfl).1 _ (.step .refl (step_answer hpoo _) ?_)⟩
  rintro i tokens reply now hl
  cases hl
  decide

/-- **A refresh brings the session back**: call 0 starts and awaits its refresh, the page logs
out, the refresh is answered, and both stores hold tokens again; call 2, which starts after all
that, returns one. -/
theorem refresh_undoes_logout :
    Reach (page_system (Fin 3)) (fun _ _ _ => True) leaving_pool left_pool ∧
      left_pool.world = (leaving_pool.start 0).world.clear_browser_session ∧
      left_pool.pool 2 = .live access_token ∧
      ∃ c c', Reach (page_system (Fin 3)) (fun _ _ _ => True) left_pool c ∧
        c.world.tokens = some refreshed_tokens ∧ c.world.persisted = some ⟨['s'], ['t'], 1000⟩ ∧
        Step (page_system (Fin 3)) c (.asked 2 .take (.returned (some ['b']))) c' ∧
        c'.pool 2 = .live (.done (.ok (some ['b']))) := by
  have hsta : Step (page_system (Fin 3)) leaving_pool _ (leaving_pool.start 0) := step_start rfl
  have hlea : Step (page_system (Fin 3)) (leaving_pool.start 0) _ left_pool := step_leave rfl
  have hans := step_answer (c := left_pool) (i := 0) rfl sample_reply
  have hbeg : (begin_access (left_pool.answer 0 sample_tokens sample_reply).world).1
      = .returned (some ['b']) := by decide +kernel
  have hlat := step_start (c := left_pool.answer 0 sample_tokens sample_reply) (i := 2) rfl
  rw [hbeg] at hlat
  refine ⟨.step (.step .refl hsta trivial) hlea trivial, rfl, rfl, _, _,
    .step .refl hans trivial, ?_, ?_, hlat, ?_⟩
  · decide +kernel
  · decide +kernel
  · rw [PageConfig.start, hbeg]
    rfl

/-- Call 1 starts once the refresh of call 0 is answered: both get the refreshed token. -/
theorem both_calls_answered : ∃ c, Reach (page_system (Fin 2)) StartsLive calling_pool c ∧
    AllAnswered c ∧ ∀ i, c.pool i = .live (.done (.ok (some ['b']))) := by
  have hsta : Step (page_system (Fin 2)) calling_pool _ (calling_pool.start 0) := step_start rfl
  have hans := step_answer (c := calling_pool.start 0) (i := 0) rfl sample_reply
  have hsec := step_start (c := (calling_pool.start 0).answer 0 sample_tokens sample_reply)
    (i := 1) rfl
  have hbeg : (begin_access ((calling_pool.start 0).answer 0 sample_tokens sample_reply).world).1
      = .returned (some ['b']) := by decide +kernel
  have hrea : Reach (page_system (Fin 2)) StartsLive calling_pool _ :=
    .step (.step (.step .refl hsta ?_) hans ⟨?_, nofun⟩) hsec ?_
  · refine ⟨_, hrea, (live_session_answers_iff fun _ => rfl).2.1 _ hrea, fun i => ?_⟩
    rw [PageConfig.start, hbeg]
    fin_cases i <;> rfl
  · exact starts_live ⟨sample_tokens, rfl, Or.inr (by decide)⟩
  · rintro i tokens reply now hl
    cases hl
    decide
  · exact starts_live ⟨refreshed_tokens, by decide +kernel, Or.inl (by decide +kernel)⟩

/-- **A live session looks logged out** to the second of two calls: the refresh token of the page
has not expired, no refresh is rejected, and call 1 starts while call 0 awaits its refresh. -/
theorem second_call_finds_no_tokens :
    (∀ i, calling_pool.pool i = .live access_token) ∧
      calling_pool.world.tokens = some sample_tokens ∧
      calling_pool.world.now < sample_tokens.refresh_expires_at_ms ∧
      Reach (page_system (Fin 2)) NoneRejected calling_pool ((calling_pool.start 0).start 1) ∧
      InFlight ((calling_pool.start 0).start 1) 0 ∧
      ((calling_pool.start 0).start 1).pool 1 = .live (.done (.ok none)) := by
  have hsta : Step (page_system (Fin 2)) calling_pool _ (calling_pool.start 0) := step_start rfl
  have hsec : Step (page_system (Fin 2)) (calling_pool.start 0) _
      ((calling_pool.start 0).start 1) := step_start rfl
  refine ⟨fun _ => rfl, rfl, by decide, ?_, ⟨sample_tokens, rfl⟩, rfl⟩
  exact .step (.step .refl hsta nofun) hsec nofun

end SovereignConfig.Web
