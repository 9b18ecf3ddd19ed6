/-
The audit list's paging (`AuditFeed` of `audit.rs`). Requests of superseded queries may still be
answered, in any order.
-/
import SovereignConfig.Web.Query

namespace SovereignConfig.Web

open Lib Text Audit List

inductive FeedState where
  | Idle
  | Loading
  | Failed
  | Ended
deriving DecidableEq

structure PageRequest where
  generation : ℕ
  query : AuditQuery
deriving DecidableEq

inductive PageOutcome where
  | Loaded (next_cursor : Option Text) (counts : Option AuditCounts)
  | Failed
deriving DecidableEq

/-- The paging rules, apart from the DOM. The generation is not bounded. -/
structure AuditFeed where
  generation : ℕ
  active : Bool
  query : AuditQuery
  next_cursor : Option Text
  state : FeedState
  counts : Option AuditCounts
deriving DecidableEq

def AuditQuery.default : AuditQuery := ⟨none, none, none, none, none, none, [], 0, none, none⟩

namespace AuditFeed

def default : AuditFeed := ⟨0, false, .default, none, .Idle, none⟩

def request (self : AuditFeed) : PageRequest :=
  ⟨self.generation, { self.query with cursor := self.next_cursor }⟩

def loading (self : AuditFeed) : AuditFeed := { self with state := .Loading }

def restart (self : AuditFeed) (query : AuditQuery) : AuditFeed × PageRequest :=
  let self := { self with
    generation := self.generation + 1
    active := true
    query := query
    next_cursor := none
    state := .Loading
    counts := none }
  (self, self.request)

def advance (self : AuditFeed) : AuditFeed × Option PageRequest :=
  if self.active && self.state = .Idle && self.next_cursor.isSome then
    (self.loading, some self.loading.request)
  else (self, none)

def retry (self : AuditFeed) : AuditFeed × Option PageRequest :=
  if self.active && self.state = .Failed then (self.loading, some self.loading.request)
  else (self, none)

def settle (self : AuditFeed) (generation : ℕ) (outcome : PageOutcome) : AuditFeed × Bool :=
  if !self.active || generation != self.generation || self.state != .Loading then (self, false)
  else match outcome with
    | .Loaded next_cursor counts =>
      ({ self with
        state := if next_cursor.isSome then .Idle else .Ended
        next_cursor := next_cursor
        counts := if counts.isSome then counts else self.counts }, true)
    | .Failed => ({ self with state := .Failed }, true)

def invalidate (self : AuditFeed) : AuditFeed :=
  { self with
    generation := self.generation + 1
    active := false
    next_cursor := none
    state := .Idle
    counts := none }

end AuditFeed

/-! ## A feed and its replies -/

inductive Caller where
  | restart
  | advance
  | retry
deriving DecidableEq

structure Asked where
  request : PageRequest
  caller : Caller
deriving DecidableEq

/-- A feed, the requests it has returned, which of them are answered, and the pages admitted,
newest first. -/
structure Session where
  feed : AuditFeed
  asked : List Asked
  answered : List ℕ
  admitted : List (Asked × PageOutcome)
deriving DecidableEq

inductive Event where
  | restart (query : AuditQuery)
  | advance
  | retry
  | invalidate
  | settle (number : ℕ) (outcome : PageOutcome)
deriving DecidableEq

namespace Session

def start : Session := ⟨.default, [], [], []⟩

def took (self : Session) (feed : AuditFeed) (request : Option PageRequest) (caller : Caller) :
    Session :=
  { self with feed := feed, asked := self.asked ++ request.toList.map (⟨·, caller⟩) }

def step (self : Session) : Event → Option Session
  | .restart query =>
    let (feed, request) := self.feed.restart query
    some (self.took feed (some request) .restart)
  | .advance =>
    let (feed, request) := self.feed.advance
    some (self.took feed request .advance)
  | .retry =>
    let (feed, request) := self.feed.retry
    some (self.took feed request .retry)
  | .invalidate => some { self with feed := self.feed.invalidate }
  | .settle number outcome =>
    match self.asked[number]? with
    | none => none
    | some asked =>
      if number ∈ self.answered then none
      else
        let (feed, admitted) := self.feed.settle asked.request.generation outcome
        some { self with
          feed := feed
          answered := number :: self.answered
          admitted := if admitted then (asked, outcome) :: self.admitted else self.admitted }

def run (self : Session) (events : List Event) : Option Session := events.foldlM step self

/-- The request was made and not yet answered. -/
def Unanswered (self : Session) (number : ℕ) (asked : Asked) : Prop :=
  self.asked[number]? = some asked ∧ number ∉ self.answered

def pages (self : Session) (generation : ℕ) : List (Asked × PageOutcome) :=
  self.admitted.filter (·.1.request.generation == generation)

end Session

def AuditQuery.filters (self : AuditQuery) : AuditQuery := { self with cursor := none }

def Follows (pages : List (Asked × PageOutcome)) (next : Asked) : Prop :=
  match pages with
  | [] => next.caller = .restart ∧ next.request.query.cursor = none
  | (last, .Loaded (some cursor) _) :: _ => next.caller = .advance ∧
      next.request.query.cursor = some cursor ∧
      next.request.query.filters = last.request.query.filters
  | (_, .Loaded none _) :: _ => False
  | (last, .Failed) :: _ => next.caller = .retry ∧ next.request.query = last.request.query

def Chain : List (Asked × PageOutcome) → Prop
  | [] => True
  | (page, _) :: earlier => Follows earlier page ∧ Chain earlier

/-! ## Where a session can stand -/

section Standing

variable (s : Session)

def Session.Settled : Prop :=
  ∀ n a, s.Unanswered n a → a.request.generation ≠ s.feed.generation

inductive Standing : Prop
  | abandoned (hactive : s.feed.active = false)
      (hnone : ∀ a ∈ s.asked, a.request.generation ≠ s.feed.generation)
  | loading (hactive : s.feed.active = true) (hstate : s.feed.state = .Loading) (n : ℕ) (a : Asked)
      (hn : s.Unanswered n a) (hrequest : a.request = s.feed.request)
      (hfollows : Follows (s.pages s.feed.generation) a)
      (honly : ∀ m b, s.Unanswered m b → b.request.generation = s.feed.generation → m = n)
  | idle (hactive : s.feed.active = true) (hstate : s.feed.state = .Idle) (hsettled : s.Settled)
      (last : Asked) (cursor : Text) (counts : Option AuditCounts)
      (earlier : List (Asked × PageOutcome))
      (hpages : s.pages s.feed.generation = (last, .Loaded (some cursor) counts) :: earlier)
      (hcursor : s.feed.next_cursor = some cursor)
      (hquery : last.request.query.filters = s.feed.query.filters)
  | failed (hactive : s.feed.active = true) (hstate : s.feed.state = .Failed)
      (hsettled : s.Settled) (last : Asked) (earlier : List (Asked × PageOutcome))
      (hpages : s.pages s.feed.generation = (last, .Failed) :: earlier)
      (hrequest : last.request = s.feed.request)
  | ended (hactive : s.feed.active = true) (hstate : s.feed.state = .Ended) (hsettled : s.Settled)

structure Session.Sound : Prop where
  bounded : ∀ a ∈ s.asked, a.request.generation ≤ s.feed.generation
  numbered : ∀ n ∈ s.answered, n < s.asked.length
  admitted : ∀ p ∈ s.admitted, p.1 ∈ s.asked
  chains : ∀ generation, Chain (s.pages generation)
  standing : Standing s

end Standing

variable {s s' : Session}

variable {generation n : ℕ} {a : Asked} {caller : Caller} {feed : AuditFeed}
  {outcome : PageOutcome}

theorem Session.Sound.pages_nil (h : s.Sound)
    (hnone : ∀ a ∈ s.asked, a.request.generation ≠ generation) : s.pages generation = [] := by
  rw [Session.pages, filter_eq_nil_iff]
  intro p hp heq
  exact hnone p.1 (h.admitted p hp) (by simpa using heq)

theorem Session.unanswered_took {request : PageRequest}
    (h : (s.took feed (some request) caller).Unanswered n a) :
    s.Unanswered n a ∨ n = s.asked.length ∧ a = ⟨request, caller⟩ := by
  obtain ⟨hget, hnot⟩ := h
  have hget' : (s.asked ++ [⟨request, caller⟩])[n]? = some a := hget
  by_cases hn : n < s.asked.length
  · rw [getElem?_append_left hn] at hget'
    exact Or.inl ⟨hget', hnot⟩
  · rw [getElem?_append_right (not_lt.mp hn), getElem?_singleton] at hget'
    split at hget'
    · exact Or.inr ⟨by omega, (Option.some.inj hget').symm⟩
    · simp at hget'

theorem Session.Unanswered.mem (h : s.Unanswered n a) : a ∈ s.asked :=
  mem_of_getElem? h.1

theorem Session.Sound.took (h : s.Sound) (hactive : feed.active = true)
    (hstate : feed.state = .Loading) (hgen : s.feed.generation ≤ feed.generation)
    (hsettled : ∀ n a, s.Unanswered n a → a.request.generation ≠ feed.generation)
    (hfollows : Follows (s.pages feed.generation) ⟨feed.request, caller⟩) :
    (s.took feed (some feed.request) caller).Sound := by
  have hask : ∀ a, a ∈ (s.took feed (some feed.request) caller).asked ↔
      a ∈ s.asked ∨ a = ⟨feed.request, caller⟩ := fun a => by simp [Session.took]
  refine ⟨fun a ha => ?_, fun n hn => ?_, fun p hp => ?_, h.chains, ?_⟩
  · rcases (hask a).mp ha with hold | rfl
    · exact (h.bounded a hold).trans hgen
    · exact Nat.le_refl _
  · have := h.numbered n hn
    simp only [Session.took, length_append]
    omega
  · exact (hask p.1).mpr (Or.inl (h.admitted p hp))
  · refine .loading hactive hstate s.asked.length ⟨feed.request, caller⟩ ⟨?_, ?_⟩ rfl hfollows ?_
    · simp [Session.took]
    · exact fun hmem => absurd (h.numbered _ hmem) (Nat.lt_irrefl _)
    · intro m b hb hcur
      rcases Session.unanswered_took hb with hold | ⟨hm, -⟩
      · exact absurd hcur (hsettled m b hold)
      · exact hm

theorem Session.took_none (feed : AuditFeed) (caller : Caller) (hfee : feed = s.feed) :
    s.took feed none caller = s := by
  simp [Session.took, hfee]

theorem Session.Sound.restart (h : s.Sound) (query : AuditQuery) :
    (s.took (s.feed.restart query).1 (some (s.feed.restart query).2) .restart).Sound := by
  have hnew : ∀ a ∈ s.asked, a.request.generation ≠ s.feed.generation + 1 := fun a ha => by
    have := h.bounded a ha
    omega
  refine h.took rfl rfl (Nat.le_succ _) (fun n a ha => hnew a ha.mem) ?_
  have hnil : s.pages (s.feed.generation + 1) = [] := h.pages_nil hnew
  show Follows (s.pages (s.feed.generation + 1)) _
  rw [hnil]
  exact ⟨rfl, rfl⟩

theorem Session.Sound.advance (h : s.Sound) :
    (s.took s.feed.advance.1 s.feed.advance.2 .advance).Sound := by
  unfold AuditFeed.advance
  split
  · rename_i hcan
    simp only [Bool.and_eq_true, decide_eq_true_eq] at hcan
    obtain ⟨⟨hactive, hidl⟩, -⟩ := hcan
    cases h.standing with
    | idle _ _ hsettled last cursor counts earlier hpages hcursor hquery =>
      refine h.took hactive rfl (Nat.le_refl _) hsettled ?_
      show Follows (s.pages s.feed.generation) _
      rw [hpages]
      exact ⟨rfl, hcursor, hquery.symm⟩
    | abandoned hoff => simp [hactive] at hoff
    | loading _ hstate => simp [hidl] at hstate
    | failed _ hstate => simp [hidl] at hstate
    | ended _ hstate => simp [hidl] at hstate
  · rwa [Session.took_none _ _ rfl]

theorem Session.Sound.retry (h : s.Sound) :
    (s.took s.feed.retry.1 s.feed.retry.2 .retry).Sound := by
  unfold AuditFeed.retry
  split
  · rename_i hcan
    simp only [Bool.and_eq_true, decide_eq_true_eq] at hcan
    obtain ⟨hactive, hfai⟩ := hcan
    cases h.standing with
    | failed _ _ hsettled last earlier hpages hrequest =>
      refine h.took hactive rfl (Nat.le_refl _) hsettled ?_
      show Follows (s.pages s.feed.generation) _
      rw [hpages]
      exact ⟨rfl, congrArg PageRequest.query hrequest.symm⟩
    | abandoned hoff => simp [hactive] at hoff
    | loading _ hstate => simp [hfai] at hstate
    | idle _ hstate => simp [hfai] at hstate
    | ended _ hstate => simp [hfai] at hstate
  · rwa [Session.took_none _ _ rfl]

theorem Session.Sound.invalidate (h : s.Sound) :
    Session.Sound { s with feed := s.feed.invalidate } := by
  refine ⟨fun a ha => (h.bounded a ha).trans (Nat.le_succ _), h.numbered, h.admitted, h.chains,
    .abandoned rfl fun a ha => ?_⟩
  have := h.bounded a ha
  show a.request.generation ≠ s.feed.generation + 1
  omega

/-! ### Replies -/

theorem settle_admits :
    (feed.settle generation outcome).2 = true ↔
      feed.active = true ∧ generation = feed.generation ∧ feed.state = .Loading := by
  unfold AuditFeed.settle
  split
  · rename_i href
    simp only [Bool.or_eq_true, Bool.not_eq_true', bne_iff_ne, ne_eq] at href
    refine iff_of_false (by simp) ?_
    rintro ⟨hactive, hgen, hstate⟩
    simp [hactive, hgen, hstate] at href
  · rename_i hawa
    simp only [Bool.or_eq_true, Bool.not_eq_true', bne_iff_ne, ne_eq, not_or, not_not,
      Bool.not_eq_false] at hawa
    refine iff_of_true ?_ ⟨hawa.1.1, hawa.1.2, hawa.2⟩
    cases outcome <;> rfl

theorem settle_refused (h : (feed.settle generation outcome).2 = false) :
    feed.settle generation outcome = (feed, false) := by
  unfold AuditFeed.settle at h ⊢
  split
  · rfl
  · rename_i hawa
    rw [if_neg hawa] at h
    cases outcome <;> simp at h

def Moved (feed feed' : AuditFeed) : PageOutcome → Prop
  | .Loaded (some cursor) _ => feed'.state = .Idle ∧ feed'.next_cursor = some cursor
  | .Loaded none _ => feed'.state = .Ended
  | .Failed => feed'.state = .Failed ∧ feed'.next_cursor = feed.next_cursor

theorem settle_admitted (h : (feed.settle generation outcome).2 = true) :
    (feed.settle generation outcome).1.active = true ∧
    (feed.settle generation outcome).1.generation = feed.generation ∧
    (feed.settle generation outcome).1.query = feed.query ∧
    Moved feed (feed.settle generation outcome).1 outcome := by
  obtain ⟨hactive, hgen, hstate⟩ := settle_admits.mp h
  have hawa : ¬ (!feed.active || generation != feed.generation || feed.state != .Loading)
      = true := by
    simp [hactive, hgen, hstate]
  unfold AuditFeed.settle
  rw [if_neg hawa]
  cases outcome with
  | Failed => exact ⟨hactive, rfl, rfl, rfl, rfl⟩
  | Loaded next_cursor counts => cases next_cursor <;> exact ⟨hactive, rfl, rfl, by simp [Moved]⟩

namespace Session

def replied (self : Session) (n : ℕ) (asked : Asked) (outcome : PageOutcome) : Session :=
  { self with
    feed := (self.feed.settle asked.request.generation outcome).1
    answered := n :: self.answered
    admitted := if (self.feed.settle asked.request.generation outcome).2
      then (asked, outcome) :: self.admitted else self.admitted }

variable {a b : Asked} {m n : ℕ} {outcome : PageOutcome} {event : Event} {events : List Event}

theorem unanswered_replied : (s.replied n a outcome).Unanswered m b ↔ s.Unanswered m b ∧ m ≠ n := by
  simp only [Unanswered, replied, mem_cons, not_or]
  exact ⟨fun h => ⟨⟨h.1, h.2.2⟩, h.2.1⟩, fun h => ⟨h.1.1, h.2, h.1.2⟩⟩

theorem Unanswered.lt (h : s.Unanswered n a) : n < s.asked.length :=
  (List.getElem?_eq_some_iff.mp h.1).1

theorem Sound.replied_refused (h : s.Sound) (hn : s.Unanswered n a)
    (href : (s.feed.settle a.request.generation outcome).2 = false) :
    (s.replied n a outcome).Sound := by
  have hfee : (s.replied n a outcome).feed = s.feed := by
    rw [replied, settle_refused href]
  have hadm : (s.replied n a outcome).admitted = s.admitted := by
    rw [replied, settle_refused href]
    rfl
  have hpages : (s.replied n a outcome).pages = s.pages := by
    funext generation
    rw [pages, pages, hadm]
  have hsettled : s.Settled → (s.replied n a outcome).Settled := fun hold m b hb => by
    rw [hfee]
    exact hold m b (unanswered_replied.mp hb).1
  refine ⟨fun b hb => ?_, fun m hm => ?_, fun p hp => ?_, fun generation => ?_, ?_⟩
  · rw [hfee]
    exact h.bounded b hb
  · rcases mem_cons.mp hm with rfl | hm
    · exact hn.lt
    · exact h.numbered m hm
  · exact h.admitted p (hadm ▸ hp)
  · rw [hpages]
    exact h.chains generation
  · cases h.standing with
    | abandoned hactive hnone => exact .abandoned (hfee ▸ hactive) (hfee ▸ hnone)
    | loading hactive hstate k b hk hrequest hfollows honly =>
      -- The awaited request is another one: its reply would have been admitted.
      have hne : k ≠ n := by
        rintro rfl
        obtain rfl : b = a := Option.some.inj (hk.1.symm.trans hn.1)
        have hcur : b.request.generation = s.feed.generation := by rw [hrequest]; rfl
        rw [settle_admits.mpr ⟨hactive, hcur, hstate⟩] at href
        simp at href
      refine .loading (hfee ▸ hactive) (hfee ▸ hstate) k b (unanswered_replied.mpr ⟨hk, hne⟩)
        (hfee ▸ hrequest) ?_ fun m c hc hcur => ?_
      · rw [hpages, hfee]
        exact hfollows
      · exact honly m c (unanswered_replied.mp hc).1 (hfee ▸ hcur)
    | idle hactive hstate hall last cursor counts earlier hlas hcursor hquery =>
      refine .idle (hfee ▸ hactive) (hfee ▸ hstate) (hsettled hall) last cursor counts earlier ?_
        (hfee ▸ hcursor) (hfee ▸ hquery)
      rw [hpages, hfee]
      exact hlas
    | failed hactive hstate hall last earlier hlas hrequest =>
      refine .failed (hfee ▸ hactive) (hfee ▸ hstate) (hsettled hall) last earlier ?_
        (hfee ▸ hrequest)
      rw [hpages, hfee]
      exact hlas
    | ended hactive hstate hall => exact .ended (hfee ▸ hactive) (hfee ▸ hstate) (hsettled hall)

theorem Sound.awaited (h : s.Sound) (hn : s.Unanswered n a) (hactive : s.feed.active = true)
    (hcur : a.request.generation = s.feed.generation) (hstate : s.feed.state = .Loading) :
    a.request = s.feed.request ∧ Follows (s.pages s.feed.generation) a ∧
      ∀ m b, s.Unanswered m b → b.request.generation = s.feed.generation → m = n := by
  cases h.standing with
  | loading _ _ k b hk hrequest hfollows honly =>
    obtain rfl := honly n a hn hcur
    obtain rfl : b = a := Option.some.inj (hk.1.symm.trans hn.1)
    exact ⟨hrequest, hfollows, honly⟩
  | abandoned hoff => simp [hactive] at hoff
  | idle _ hidl => simp [hstate] at hidl
  | failed _ hfai => simp [hstate] at hfai
  | ended _ hend => simp [hstate] at hend

theorem Sound.replied_admitted (h : s.Sound) (hn : s.Unanswered n a)
    (hadmi : (s.feed.settle a.request.generation outcome).2 = true) :
    (s.replied n a outcome).Sound := by
  obtain ⟨hactive, hcur, hstate⟩ := settle_admits.mp hadmi
  obtain ⟨hrequest, hfollows, honly⟩ := h.awaited hn hactive hcur hstate
  obtain ⟨hactive', hgen', hquery', hstate'⟩ := settle_admitted hadmi
  have hadm : (s.replied n a outcome).admitted = (a, outcome) :: s.admitted := by
    rw [replied]
    exact if_pos hadmi
  have hgen : (s.replied n a outcome).feed.generation = s.feed.generation := hgen'
  have hpages : (s.replied n a outcome).pages s.feed.generation =
      (a, outcome) :: s.pages s.feed.generation := by
    rw [pages, pages, hadm, filter_cons_of_pos (by simpa using hcur)]
  have hsettled : (s.replied n a outcome).Settled := by
    intro m b hb hb'
    obtain ⟨hold, hne⟩ := unanswered_replied.mp hb
    exact hne (honly m b hold (hgen ▸ hb'))
  refine ⟨fun b hb => ?_, fun m hm => ?_, fun p hp => ?_, fun generation => ?_, ?_⟩
  · rw [hgen]
    exact h.bounded b hb
  · rcases mem_cons.mp hm with rfl | hm
    · exact hn.lt
    · exact h.numbered m hm
  · rw [hadm] at hp
    rcases mem_cons.mp hp with rfl | hp
    · exact hn.mem
    · exact h.admitted p hp
  · by_cases hg : generation = s.feed.generation
    · subst hg
      rw [hpages]
      exact ⟨hfollows, h.chains _⟩
    · have hoth : (s.replied n a outcome).pages generation = s.pages generation := by
        rw [pages, pages, hadm, filter_cons_of_neg (by simpa [hcur] using Ne.symm hg)]
      rw [hoth]
      exact h.chains generation
  · rw [← hgen] at hpages
    cases outcome with
    | Failed =>
      refine .failed hactive' hstate'.1 hsettled a _ hpages ?_
      rw [hrequest]
      simp only [AuditFeed.request, replied, hgen', hquery', hstate'.2]
    | Loaded next_cursor counts =>
      cases next_cursor with
      | none => exact .ended hactive' hstate' hsettled
      | some cursor =>
        refine .idle hactive' hstate'.1 hsettled a cursor counts _ hpages hstate'.2 ?_
        rw [hrequest]
        show s.feed.query.filters = _
        exact congrArg AuditQuery.filters hquery'.symm

/-! ## Every sequence of calls -/

theorem step_settle (h : s.step (.settle n outcome) = some s') :
    ∃ a, s.Unanswered n a ∧ s' = s.replied n a outcome := by
  simp only [step] at h
  cases ha : s.asked[n]? with
  | none => simp [ha] at h
  | some a =>
    simp only [ha] at h
    split at h
    · simp at h
    · rename_i hnot
      exact ⟨a, ⟨ha, hnot⟩, (Option.some.inj h).symm⟩

theorem Sound.replied (h : s.Sound) (hn : s.Unanswered n a) (outcome : PageOutcome) :
    (s.replied n a outcome).Sound := by
  cases hadm : (s.feed.settle a.request.generation outcome).2 with
  | true => exact h.replied_admitted hn hadm
  | false => exact h.replied_refused hn hadm

theorem Sound.step (h : s.Sound) (hste : s.step event = some s') : s'.Sound := by
  cases event with
  | restart query =>
    obtain rfl := Option.some.inj hste
    exact h.restart query
  | advance =>
    obtain rfl := Option.some.inj hste
    exact h.advance
  | retry =>
    obtain rfl := Option.some.inj hste
    exact h.retry
  | invalidate =>
    obtain rfl := Option.some.inj hste
    exact h.invalidate
  | settle n outcome =>
    obtain ⟨a, hn, rfl⟩ := step_settle hste
    exact h.replied hn outcome

theorem Sound.start : start.Sound :=
  ⟨fun _ h => absurd h not_mem_nil, fun _ h => absurd h not_mem_nil,
    fun _ h => absurd h not_mem_nil, fun _ => trivial,
    .abandoned rfl fun _ h => absurd h not_mem_nil⟩

theorem run_induction {I : Session → Prop} {ok : Event → Prop}
    (hste : ∀ s s' event, I s → ok event → s.step event = some s' → I s')
    (hok : ∀ event ∈ events, ok event) (hs : I s) (hrun : s.run events = some s') : I s' := by
  induction events generalizing s with
  | nil =>
    obtain rfl := Option.some.inj hrun
    exact hs
  | cons event events ih =>
    rw [run, foldlM_cons] at hrun
    obtain ⟨s₁, hs₁, hres⟩ := Option.bind_eq_some_iff.mp hrun
    exact ih (fun e he => hok e (mem_cons_of_mem event he))
      (hste s s₁ event hs (hok event mem_cons_self) hs₁) hres

theorem Sound.run (h : s.Sound) (hrun : s.run events = some s') : s'.Sound :=
  have hste : ∀ (s s' : Session) (event : Event), s.Sound → True → s.step event = some s' → s'.Sound :=
    fun _ _ _ h _ hste => h.step hste
  run_induction hste (fun _ _ => trivial) h hrun

/-! ### What is requested next -/

theorem step_asked (hste : s.step event = some s') :
    s'.asked = s.asked ∨ ∃ caller, s' = s.took s'.feed (some s'.feed.request) caller := by
  cases event with
  | restart query =>
    obtain rfl := Option.some.inj hste
    exact Or.inr ⟨.restart, rfl⟩
  | advance =>
    obtain rfl : s.took s.feed.advance.1 s.feed.advance.2 .advance = s' := Option.some.inj hste
    unfold AuditFeed.advance
    split
    · exact Or.inr ⟨.advance, rfl⟩
    · exact Or.inl (by simp [took])
  | retry =>
    obtain rfl : s.took s.feed.retry.1 s.feed.retry.2 .retry = s' := Option.some.inj hste
    unfold AuditFeed.retry
    split
    · exact Or.inr ⟨.retry, rfl⟩
    · exact Or.inl (by simp [took])
  | invalidate =>
    obtain rfl := Option.some.inj hste
    exact Or.inl rfl
  | settle n outcome =>
    obtain ⟨a, -, rfl⟩ := step_settle hste
    exact Or.inl rfl

theorem Sound.requested (h : s.Sound) (hste : s.step event = some s')
    (ha : s'.asked = s.asked ++ [a]) :
    a.request.generation = s'.feed.generation ∧ Follows (s.pages a.request.generation) a := by
  rcases step_asked hste with hsam | ⟨caller, htoo⟩
  · exact absurd (hsam.symm.trans ha) (by simp)
  · have hask : s'.asked = s.asked ++ [⟨s'.feed.request, caller⟩] := congrArg Session.asked htoo
    obtain rfl : a = ⟨s'.feed.request, caller⟩ := by
      simpa using append_cancel_left (ha.symm.trans hask)
    have hans : s'.answered = s.answered := by rw [htoo]; rfl
    have hadm : s'.admitted = s.admitted := by rw [htoo]; rfl
    have hpages : s'.pages = s.pages := funext fun _ => congrArg (filter _) hadm
    -- The new request is unanswered, so it is the one the feed is waiting for.
    have hnew : s'.Unanswered s.asked.length ⟨s'.feed.request, caller⟩ := by
      refine ⟨by rw [hask]; simp, ?_⟩
      rw [hans]
      exact fun hmem => absurd (h.numbered _ hmem) (Nat.lt_irrefl _)
    refine ⟨rfl, ?_⟩
    show Follows (s.pages s'.feed.generation) _
    rw [← hpages]
    cases (h.step hste).standing with
    | loading _ _ n b hn _ hfollows honly =>
      obtain rfl := honly _ _ hnew rfl
      obtain rfl := Option.some.inj (hn.1.symm.trans hnew.1)
      exact hfollows
    | abandoned _ hnone => exact absurd rfl (hnone _ hnew.mem)
    | idle _ _ hsettled => exact absurd rfl (hsettled _ _ hnew)
    | failed _ _ hsettled => exact absurd rfl (hsettled _ _ hnew)
    | ended _ _ hsettled => exact absurd rfl (hsettled _ _ hnew)

def Quiet (self : Session) : Prop := self.feed.active = false ∨ self.feed.state = .Ended

theorem Quiet.step (h : s.Quiet) (heve : ∀ query, event ≠ .restart query)
    (hste : s.step event = some s') : s'.Quiet ∧ s'.asked = s.asked := by
  cases event with
  | restart query => exact absurd rfl (heve query)
  | advance =>
    have hnone : s.feed.advance = (s.feed, none) := by
      rcases h with h | h <;> simp [AuditFeed.advance, h]
    obtain rfl : s.took s.feed.advance.1 s.feed.advance.2 .advance = s' := Option.some.inj hste
    rw [hnone]
    exact ⟨h, by simp [took]⟩
  | retry =>
    have hnone : s.feed.retry = (s.feed, none) := by
      rcases h with h | h <;> simp [AuditFeed.retry, h]
    obtain rfl : s.took s.feed.retry.1 s.feed.retry.2 .retry = s' := Option.some.inj hste
    rw [hnone]
    exact ⟨h, by simp [took]⟩
  | invalidate =>
    obtain rfl := Option.some.inj hste
    exact ⟨Or.inl rfl, rfl⟩
  | settle n outcome =>
    obtain ⟨a, -, rfl⟩ := step_settle hste
    have href : (s.feed.settle a.request.generation outcome).2 = false := by
      rw [← Bool.not_eq_true, settle_admits]
      rintro ⟨hactive, -, hstate⟩
      rcases h with h | h
      · simp [hactive] at h
      · simp [hstate] at h
    refine ⟨?_, rfl⟩
    have hfee : (s.replied n a outcome).feed = s.feed := by
      rw [Session.replied, settle_refused href]
    rw [Quiet, hfee]
    exact h

theorem Quiet.run (h : s.Quiet) (heven : ∀ event ∈ events, ∀ query, event ≠ .restart query)
    (hrun : s.run events = some s') : s'.asked = s.asked := by
  have hkep : s'.Quiet ∧ s'.asked = s.asked :=
    run_induction (I := fun t => t.Quiet ∧ t.asked = s.asked)
      (fun _ _ _ ht heve hste => ⟨(ht.1.step heve hste).1, (ht.1.step heve hste).2.trans ht.2⟩)
      heven ⟨h, rfl⟩ hrun
  exact hkep.2

theorem Sound.quiet (h : s.Sound) {last : Asked} {counts : Option AuditCounts}
    {earlier : List (Asked × PageOutcome)}
    (hlas : s.pages s.feed.generation = (last, .Loaded none counts) :: earlier) : s.Quiet := by
  cases h.standing with
  | abandoned hactive => exact Or.inl hactive
  | ended _ hstate => exact Or.inr hstate
  | loading _ _ n a _ _ hfollows =>
    rw [hlas] at hfollows
    exact hfollows.elim
  | idle _ _ _ _ _ _ _ hpages => exact absurd (hlas.symm.trans hpages) (by simp)
  | failed _ _ _ _ _ hpages => exact absurd (hlas.symm.trans hpages) (by simp)

theorem Sound.admits_iff (h : s.Sound) (hn : s.Unanswered n a) (outcome : PageOutcome) :
    (s.feed.settle a.request.generation outcome).2 = true ↔
      a.request.generation = s.feed.generation := by
  rw [settle_admits]
  refine ⟨fun hadm => hadm.2.1, fun hcur => ?_⟩
  cases h.standing with
  | loading hactive hstate => exact ⟨hactive, hcur, hstate⟩
  | abandoned _ hnone => exact absurd hcur (hnone a hn.mem)
  | idle _ _ hsettled => exact absurd hcur (hsettled n a hn)
  | failed _ _ hsettled => exact absurd hcur (hsettled n a hn)
  | ended _ _ hsettled => exact absurd hcur (hsettled n a hn)

theorem Sound.unanswered_unique (h : s.Sound) (hn : s.Unanswered n a) (hm : s.Unanswered m b)
    (ha : a.request.generation = s.feed.generation)
    (hb : b.request.generation = s.feed.generation) : n = m := by
  cases h.standing with
  | loading _ _ _ _ _ _ _ honly => exact (honly n a hn ha).trans (honly m b hm hb).symm
  | abandoned _ hnone => exact absurd ha (hnone a hn.mem)
  | idle _ _ hsettled => exact absurd ha (hsettled n a hn)
  | failed _ _ hsettled => exact absurd ha (hsettled n a hn)
  | ended _ _ hsettled => exact absurd ha (hsettled n a hn)

end Session

/-- **The audit list's paging**, after any calls and replies in any order. -/
theorem feed_pages_in_order {events : List Event} (hrun : Session.start.run events = some s) :
    -- one page of the current generation is in flight, at most
    (∀ n m a b, s.Unanswered n a → s.Unanswered m b →
      a.request.generation = s.feed.generation → b.request.generation = s.feed.generation → n = m) ∧
    -- a reply is admitted when it is to that page
    (∀ n a outcome, s.Unanswered n a → ((s.feed.settle a.request.generation outcome).2 = true ↔
      a.request.generation = s.feed.generation)) ∧
    -- the pages of a generation are a chain, and so is what is requested next
    (∀ generation, Chain (s.pages generation)) ∧
    (∀ event s' a, s.step event = some s' → s'.asked = s.asked ++ [a] →
      a.request.generation = s'.feed.generation ∧ Follows (s.pages a.request.generation) a) ∧
    -- after the last page nothing is requested until a restart
    (∀ last counts earlier, s.pages s.feed.generation = (last, .Loaded none counts) :: earlier →
      ∀ later s', (∀ event ∈ later, ∀ query, event ≠ .restart query) →
        s.run later = some s' → s'.asked = s.asked) := by
  have h : s.Sound := Session.Sound.start.run hrun
  refine ⟨fun n m a b hn hm ha hb => h.unanswered_unique hn hm ha hb,
    fun n a outcome hn => h.admits_iff hn outcome, h.chains,
    fun event s' a hste ha => h.requested hste ha, ?_⟩
  intro last counts earlier hlas later s' hlate hlat
  exact (h.quiet hlas).run hlate hlat

def sample_events : List Event :=
  [.restart .default, .restart .default, .settle 0 (.Loaded none none),
    .settle 1 (.Loaded (some ['c']) none), .advance, .settle 2 .Failed, .advance, .retry,
    .settle 3 (.Loaded none none)]

def sample_asked (generation : ℕ) (cursor : Option Text) (caller : Caller) : Asked :=
  ⟨⟨generation, { AuditQuery.default with cursor := cursor }⟩, caller⟩

def sample_session : Session where
  feed := ⟨2, true, .default, none, .Ended, none⟩
  asked := [sample_asked 1 none .restart, sample_asked 2 none .restart,
    sample_asked 2 (some ['c']) .advance, sample_asked 2 (some ['c']) .retry]
  answered := [3, 2, 1, 0]
  admitted := [(sample_asked 2 (some ['c']) .retry, .Loaded none none),
    (sample_asked 2 (some ['c']) .advance, .Failed),
    (sample_asked 2 none .restart, .Loaded (some ['c']) none)]

/-- The page of the superseded query is not admitted, the failed one is asked for again, and
nothing is asked for after the last. -/
theorem sample_feed_ended : Session.start.run sample_events = some sample_session ∧
    Chain (sample_session.pages 2) ∧
    ∀ s', sample_session.run [.advance, .retry] = some s' → s'.asked = sample_session.asked := by
  have hrun : Session.start.run sample_events = some sample_session := by decide
  obtain ⟨-, -, hcha, -, hqui⟩ := feed_pages_in_order hrun
  refine ⟨hrun, hcha 2, fun s' hs' => ?_⟩
  exact hqui _ _ _ rfl [.advance, .retry] s' (by simp) hs'

end SovereignConfig.Web
