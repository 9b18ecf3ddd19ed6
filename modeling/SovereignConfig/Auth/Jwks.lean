/-
The issuers' signing keys (`auth/jwks.rs`). Calls interleave request by request and may be dropped
where they await. What is behind the mutex is seen by its holder only, so the success flag is
written in one step with the map.
-/
import SovereignConfig.Lib.Guarded
import SovereignConfig.Text

namespace SovereignConfig.Auth

open Lib Function

/-! ## Key sets -/

structure VerifyingKey where
  modulus : List UInt8
  exponent : List UInt8
deriving DecidableEq

inductive KeyLookup where
  | Found (key : VerifyingKey)
  | Unknown
  | Unavailable
deriving DecidableEq

abbrev KeyMap := Text → Option VerifyingKey

structure LastFetch where
  miss : Option ℕ
  succeeded : Bool
deriving DecidableEq

structure Issuer where
  issuer : Text
  jwks_url : Text
deriving DecidableEq

structure KeySets where
  issuers : List Issuer
  min_refresh_interval : ℕ

def KeySets.add (join : Text → Option Text) (sets : List Issuer) (issuer : Text) :
    Option (List Issuer) :=
  if sets.any (fun set => set.issuer == issuer) then some sets
  else (join issuer).map fun jwks_url => sets ++ [⟨issuer, jwks_url⟩]

def KeySets.new (join : Text → Option Text) (issuers : List Text) (min_refresh_interval : ℕ) :
    Option KeySets :=
  (issuers.foldlM (KeySets.add join) []).map fun sets => ⟨sets, min_refresh_interval⟩

/-- What has happened to an issuer's keys, newest first: the fetches that completed with what
they loaded, the instants unknown keys started fetches at, and the URLs asked. -/
structure History where
  completed : List (Option KeyMap)
  misses : List ℕ
  targets : List Text

def History.loaded (self : History) : Option KeyMap := (self.completed.filterMap id).head?

def History.latest (self : History) : Option KeyMap := self.completed.head?.join

/-- An issuer's keys as the calls share them; `holder` is who has the mutex. -/
structure IssuerKeys (ι : Type) where
  keys : KeyMap
  fetch : LastFetch
  holder : Option ι
  history : History

def IssuerKeys.default (ι : Type) : IssuerKeys ι :=
  ⟨fun _ => none, ⟨none, false⟩, none, ⟨[], [], []⟩⟩

structure World (ι : Type) where
  sets : Text → IssuerKeys ι
  clock : ℕ

def World.put {ι : Type} (self : World ι) (issuer : Text) (set : IssuerKeys ι) : World ι :=
  { self with sets := update self.sets issuer set }

/-! ## Requests -/

/-- The end of an await: the call may have been dropped meanwhile. -/
inductive Awaited (α : Type) where
  | ready (value : α)
  | dropped

inductive Request where
  /-- `IssuerKeys::cached`. -/
  | cached (issuer kid : Text)
  /-- `fetch.lock().await`. -/
  | lock (issuer : Text)
  /-- Whether a miss has fetched within the interval, and then whether the last fetch
  succeeded. -/
  | recent (issuer : Text)
  /-- A fetch of the URL starts; for an unknown key the instant is noted first. -/
  | start (issuer url : Text) (missed : Bool)
  /-- `fetch_keys(..).await`, and what `fetch` makes of it. -/
  | fetched (issuer : Text)
  /-- The guard of the mutex is dropped. -/
  | unlock (issuer : Text)

abbrev Answer : Request → Type
  | .cached _ _ => Option VerifyingKey
  | .lock _ => Awaited Unit
  | .recent _ => Option Bool
  | .start _ _ _ => Unit
  | .fetched _ => Awaited (Option KeyMap)
  | .unlock _ => Unit

inductive Dropped where
  | dropped

abbrev KeyCall := Call Request Answer Dropped

def ask (q : Request) : KeyCall (Answer q) := .ask q fun a => .done (.ok a)

/-- `KeySets::fetch`, with the note of the miss before it; dropped while it waits, the guard goes
with it. -/
def fetch (set : Issuer) (missed : Bool) : KeyCall Bool := do
  ask (.start set.issuer set.jwks_url missed)
  match ← ask (.fetched set.issuer) with
  | .dropped => do
    ask (.unlock set.issuer)
    Call.fail .dropped
  | .ready fetched => return fetched.isSome

def leave {α : Type} (issuer : Text) (result : α) : KeyCall α := do
  ask (.unlock issuer)
  return result

def KeySets.key (self : KeySets) (issuer kid : Text) : KeyCall KeyLookup :=
  match self.issuers.find? (fun set => set.issuer == issuer) with
  | none => return .Unknown
  | some set => do
    match ← ask (.cached set.issuer kid) with
    | some key => return .Found key
    | none =>
      match ← ask (.lock set.issuer) with
      | .dropped => Call.fail .dropped
      | .ready () =>
        -- Another request may have fetched while this one waited for the lock.
        match ← ask (.cached set.issuer kid) with
        | some key => leave set.issuer (.Found key)
        | none =>
          match ← ask (.recent set.issuer) with
          | some succeeded => leave set.issuer (if succeeded then .Unknown else .Unavailable)
          | none =>
            match ← fetch set true with
            | false => leave set.issuer .Unavailable
            | true =>
              match ← ask (.cached set.issuer kid) with
              | some key => leave set.issuer (.Found key)
              | none => leave set.issuer .Unknown

/-- One round of the loop of `KeySets::refresh`. -/
def refresh_one (all : Bool) (set : Issuer) : KeyCall Bool := do
  match ← ask (.lock set.issuer) with
  | .dropped => Call.fail .dropped
  | .ready () => do
    let loaded ← fetch set false
    leave set.issuer (all && loaded)

def KeySets.refresh (self : KeySets) : KeyCall Bool := self.issuers.foldlM refresh_one true

/-! ## The cache shared by the calls -/

inductive Invocation where
  | key (issuer kid : Text)
  | refresh

inductive Outcome where
  | lookup (result : KeyLookup)
  | refreshed (all : Bool)

def Invocation.call (sets : KeySets) : Invocation → KeyCall Outcome
  | .key issuer kid => do return .lookup (← sets.key issuer kid)
  | .refresh => do return .refreshed (← sets.refresh)

variable {ι : Type}

/-- `miss.is_some_and(|miss| miss.elapsed() < min_refresh_interval)`, and then `succeeded`. -/
def recent (min_refresh_interval clock : ℕ) (last : LastFetch) : Option Bool :=
  match last.miss with
  | none => none
  | some miss => if clock - miss < min_refresh_interval then some last.succeeded else none

def IssuerKeys.hold (self : IssuerKeys ι) (holder : Option ι) : IssuerKeys ι := { self with holder }

def IssuerKeys.start (self : IssuerKeys ι) (url : Text) (missed : Bool) (clock : ℕ) : IssuerKeys ι :=
  { self with
    fetch := if missed then { self.fetch with miss := some clock } else self.fetch
    history := { self.history with
      misses := if missed then clock :: self.history.misses else self.history.misses
      targets := url :: self.history.targets } }

def IssuerKeys.finish (self : IssuerKeys ι) (fetched : Option KeyMap) : IssuerKeys ι :=
  { self with
    keys := fetched.getD self.keys
    fetch := { self.fetch with succeeded := fetched.isSome }
    history := { self.history with completed := fetched :: self.history.completed } }

def serve (sets : KeySets) (i : ι) (request : Request) (w : World ι) (answer : Answer request)
    (w' : World ι) : Prop :=
  match request, answer with
  | .cached issuer kid, found => found = (w.sets issuer).keys kid ∧ w' = w
  | .lock issuer, .ready () =>
    (w.sets issuer).holder = none ∧ w' = w.put issuer ((w.sets issuer).hold (some i))
  | .lock _, .dropped => w' = w
  | .recent issuer, answer =>
    answer = recent sets.min_refresh_interval w.clock (w.sets issuer).fetch ∧ w' = w
  | .start issuer url missed, () => w' = w.put issuer ((w.sets issuer).start url missed w.clock)
  | .fetched issuer, .ready fetched => w' = w.put issuer ((w.sets issuer).finish fetched)
  | .fetched _, .dropped => w' = w
  | .unlock issuer, () => w' = w.put issuer ((w.sets issuer).hold none)

def cache (sets : KeySets) (ι : Type) : System ι (World ι) Request Answer where
  serve := serve sets
  crash _ _ _ := False
  idle w w' := ∃ clock, w.clock ≤ clock ∧ w' = { w with clock }

variable {issuer kid : Text} {join : Text → Option Text} {clock : ℕ} {set : IssuerKeys ι}
  {F : IssuerKeys ι → ℕ → Prop} {w : World ι} {q : Request} {P : World ι → Prop} {config : Issuer}
  {missed : Bool}

theorem mem_of_add {sets sets' : List Issuer} (h : KeySets.add join sets issuer = some sets')
    {set : Issuer} (hset : set ∈ sets') :
    set ∈ sets ∨ (set.issuer = issuer ∧ join issuer = some set.jwks_url) := by
  unfold KeySets.add at h
  split_ifs at h
  · obtain rfl := Option.some.inj h
    exact Or.inl hset
  · obtain ⟨url, hurl, rfl⟩ := Option.map_eq_some_iff.mp h
    rcases List.mem_append.mp hset with hold | hnew
    · exact Or.inl hold
    · obtain rfl := List.mem_singleton.mp hnew
      exact Or.inr ⟨rfl, hurl⟩

theorem mem_of_adds {issuers : List Text} {sets sets' : List Issuer}
    (h : issuers.foldlM (KeySets.add join) sets = some sets') {set : Issuer} (hset : set ∈ sets') :
    set ∈ sets ∨ (set.issuer ∈ issuers ∧ join set.issuer = some set.jwks_url) := by
  induction issuers generalizing sets with
  | nil =>
    obtain rfl := Option.some.inj h
    exact Or.inl hset
  | cons issuer issuers ih =>
    rw [List.foldlM_cons, Option.bind_eq_bind, Option.bind_eq_some_iff] at h
    obtain ⟨next, hadd, hres⟩ := h
    rcases ih hres with hnext | ⟨hiss, hurl⟩
    · rcases mem_of_add hadd hnext with hold | ⟨rfl, hurl⟩
      · exact Or.inl hold
      · exact Or.inr ⟨List.mem_cons_self, hurl⟩
    · exact Or.inr ⟨List.mem_cons_of_mem _ hiss, hurl⟩

theorem mem_new {issuers : List Text} {min_refresh_interval : ℕ} {sets : KeySets}
    (h : KeySets.new join issuers min_refresh_interval = some sets) {set : Issuer}
    (hset : set ∈ sets.issuers) : set.issuer ∈ issuers ∧ join set.issuer = some set.jwks_url := by
  obtain ⟨final, hfol, rfl⟩ := Option.map_eq_some_iff.mp h
  exact (mem_of_adds hfol hset).resolve_left List.not_mem_nil

/-! ## What the calls keep to -/

structure Sound (sets : KeySets) (issuer : Text) (set : IssuerKeys ι) (clock : ℕ) : Prop where
  keys : set.keys = set.history.loaded.getD fun _ => none
  succeeded : set.fetch.succeeded = set.history.latest.isSome
  miss : set.fetch.miss = set.history.misses.head?
  past : ∀ t ∈ set.history.misses, t ≤ clock
  apart : set.history.misses.Pairwise fun later earlier => earlier + sets.min_refresh_interval ≤ later
  targets : ∀ url ∈ set.history.targets, ∃ s ∈ sets.issuers, s.issuer = issuer ∧ s.jwks_url = url

def discipline (sets : KeySets) (ι : Type) : Discipline ι (World ι) Request Answer where
  inv w := ∀ issuer, Sound sets issuer (w.sets issuer) w.clock
  allowed w l w' := w.clock ≤ w'.clock ∧
    ∀ issuer i, (w.sets issuer).holder = some i → l.Foreign i → w'.sets issuer = w.sets issuer

variable {sets : KeySets} {i : ι}

theorem Sound.later {clock' : ℕ} (h : Sound sets issuer set clock) (hle : clock ≤ clock') :
    Sound sets issuer set clock' :=
  { h with past := fun t ht => (h.past t ht).trans hle }

theorem Sound.hold (h : Sound sets issuer set clock) (holder : Option ι) :
    Sound sets issuer (set.hold holder) clock := { h with }

theorem discipline_sound : (discipline sets ι).Sound (cache sets ι) where
  crash _ _ _ _ h := h.elim
  idle w w' hinv h := by
    obtain ⟨clock, hle, rfl⟩ := h
    exact ⟨fun issuer => (hinv issuer).later hle, hle, fun _ _ _ _ => rfl⟩

def Held (i : ι) (issuer : Text) (F : IssuerKeys ι → ℕ → Prop) (w : World ι) : Prop :=
  (w.sets issuer).holder = some i ∧ F (w.sets issuer) w.clock

theorem stable_held (hF : ∀ set clock clock', clock ≤ clock' → F set clock → F set clock') :
    Stable (discipline sets ι) i (Held i issuer F) := by
  intro w l w' _ _ hhel hfor hall
  obtain ⟨hle, hsam⟩ := hall
  have hset := hsam issuer i hhel.1 hfor
  unfold Held
  rw [hset]
  exact ⟨hhel.1, hF _ _ _ hle hhel.2⟩

theorem stable_true : Stable (discipline sets ι) i fun _ => True :=
  fun _ _ _ _ _ _ _ _ => trivial

theorem allowed_refl (w : World ι) (l : Label ι Request Answer) :
    (discipline sets ι).allowed w l w :=
  ⟨le_rfl, fun _ _ _ _ => rfl⟩

theorem put_same :
    (w.put issuer set).sets issuer = set := update_self ..

theorem put_keeps {a : Answer q} (hinv : (discipline sets ι).inv w)
    (hsou : Sound sets issuer set w.clock) (hown : ∀ j, (w.sets issuer).holder = some j → j = i) :
    (discipline sets ι).inv (w.put issuer set) ∧
      (discipline sets ι).allowed w (.asked i q a) (w.put issuer set) := by
  refine ⟨fun other => ?_, le_rfl, fun other j hj hfor => ?_⟩
  · by_cases hoth : other = issuer
    · subst hoth
      rw [put_same]
      exact hsou
    · show Sound sets other (update w.sets issuer set other) w.clock
      rw [update_of_ne hoth]
      exact hinv other
  · have hoth : other ≠ issuer := by
      rintro rfl
      exact hfor (hown j hj).symm
    exact update_of_ne hoth ..

theorem Held.owner (h : Held i issuer F w) (j : ι) (hj : (w.sets issuer).holder = some j) : j = i :=
  Option.some.inj (hj.symm.trans h.1)

/-! ## One request at a time -/

abbrev Safe (sets : KeySets) (i : ι) {α : Type} (x : KeyCall α) (P : World ι → Prop)
    (R : α → World ι → Prop) : Prop :=
  Guarded (cache sets ι) (fun _ _ _ => True) (discipline sets ι) i x P R

abbrev Grants (sets : KeySets) (i : ι) (P : World ι → Prop) (q : Request) (a : Answer q)
    (P' : World ι → Prop) : Prop :=
  Serves (cache sets ι) (fun _ _ _ => True) (discipline sets ι) i P q a P'

theorem guarded_ask {α : Type} {f : Answer q → KeyCall α} {P' : Answer q → World ι → Prop}
    {R : α → World ι → Prop} (hsta : Stable (discipline sets ι) i P)
    (hser : ∀ a, Grants sets i P q a (P' a)) (hk : ∀ a, Safe sets i (f a) (P' a) R) :
    Safe sets i (ask q >>= f) P R :=
  Guarded.ask hsta hser hk

theorem serves_cached (found : Option VerifyingKey) : Grants sets i P (.cached issuer kid) found
      fun w => P w ∧ (w.sets issuer).keys kid = found := by
  rintro w w' hinv hP ⟨rfl, rfl⟩ _
  exact ⟨hinv, allowed_refl w' _, hP, rfl⟩

def Locked (i : ι) (issuer : Text) : Awaited Unit → World ι → Prop
  | .ready () => Held i issuer fun _ _ => True
  | .dropped => fun _ => True

theorem serves_lock (a : Awaited Unit) : Grants sets i (fun _ => True) (.lock issuer) a
      (Locked i issuer a) := by
  intro w w' hinv _ hser _
  cases a with
  | dropped =>
    obtain rfl : w' = w := hser
    exact ⟨hinv, allowed_refl w' _, trivial⟩
  | ready =>
    obtain ⟨hfre, rfl⟩ := hser
    obtain ⟨hinv', hall⟩ := put_keeps (q := .lock issuer) (a := .ready ()) (i := i) hinv
      ((hinv issuer).hold (some i)) fun j hj => absurd (hfre.symm.trans hj) (by simp)
    refine ⟨hinv', hall, ?_, trivial⟩
    rw [put_same]
    rfl

def Rested (sets : KeySets) (set : IssuerKeys ι) (clock : ℕ) : Prop :=
  ∀ miss, set.fetch.miss = some miss → miss + sets.min_refresh_interval ≤ clock

def AfterRecent (sets : KeySets) (F : IssuerKeys ι → ℕ → Prop) :
    Option Bool → IssuerKeys ι → ℕ → Prop
  | some succeeded => fun set clock => F set clock ∧ set.fetch.succeeded = succeeded
  | none => Rested sets

theorem serves_recent (a : Option Bool) : Grants sets i (Held i issuer F) (.recent issuer) a
      (Held i issuer (AfterRecent sets F a)) := by
  rintro w w' hinv hhel ⟨rfl, rfl⟩ _
  refine ⟨hinv, allowed_refl w' _, hhel.1, ?_⟩
  have hpas : ∀ miss, (w'.sets issuer).fetch.miss = some miss → miss ≤ w'.clock := by
    intro miss hmis
    rw [(hinv issuer).miss] at hmis
    exact (hinv issuer).past miss (List.mem_of_mem_head? hmis)
  unfold recent
  split
  · rename_i hnone
    intro miss hmis
    exact absurd (hnone.symm.trans hmis) (by simp)
  · rename_i miss hmis
    split_ifs with hrec
    · exact ⟨hhel.2, rfl⟩
    · intro miss' hmis'
      obtain rfl := Option.some.inj (hmis.symm.trans hmis')
      have := hpas miss hmis
      omega

theorem Sound.start (h : Sound sets config.issuer set clock) (hcon : config ∈ sets.issuers)
    (hres : missed = true → Rested sets set clock) :
    Sound sets config.issuer (set.start config.jwks_url missed clock) clock := by
  have htar : ∀ url ∈ config.jwks_url :: set.history.targets,
      ∃ s ∈ sets.issuers, s.issuer = config.issuer ∧ s.jwks_url = url := by
    intro url hurl
    rcases List.mem_cons.mp hurl with rfl | hurl
    · exact ⟨config, hcon, rfl, rfl⟩
    · exact h.targets url hurl
  cases missed with
  | false => exact ⟨h.keys, h.succeeded, h.miss, h.past, h.apart, htar⟩
  | true =>
    refine ⟨h.keys, h.succeeded, rfl, ?_, ?_, htar⟩
    · intro t ht
      rcases List.mem_cons.mp ht with rfl | ht
      · exact le_rfl
      · exact h.past t ht
    · -- The newest miss is the one the clock was compared with, and the others are older.
      refine List.Pairwise.cons (fun earlier hear => ?_) h.apart
      cases hmis : set.history.misses with
      | nil => exact absurd (hmis ▸ hear) List.not_mem_nil
      | cons newest rest =>
        have hnew : newest + sets.min_refresh_interval ≤ clock :=
          hres rfl newest (by rw [h.miss, hmis, List.head?_cons])
        rw [hmis] at hear
        rcases List.mem_cons.mp hear with rfl | hrest
        · exact hnew
        · have hapa := (List.pairwise_cons.mp (hmis ▸ h.apart)).1 earlier hrest
          omega

theorem Sound.finish (h : Sound sets issuer set clock) (fetched : Option KeyMap) :
    Sound sets issuer (set.finish fetched) clock := by
  refine ⟨?_, ?_, h.miss, h.past, h.apart, h.targets⟩
  · cases fetched with
    | none => exact h.keys
    | some keys => rfl
  · cases fetched with
    | none => rfl
    | some keys => rfl

theorem serves_start (hcon : config ∈ sets.issuers)
    (hres : ∀ set clock, F set clock → missed = true → Rested sets set clock) (a : Unit) :
    Grants sets i (Held i config.issuer F)
      (.start config.issuer config.jwks_url missed) a (Held i config.issuer fun _ _ => True) := by
  intro w w' hinv hhel hser _
  obtain rfl : w' = w.put config.issuer ((w.sets config.issuer).start config.jwks_url missed w.clock) :=
    hser
  obtain ⟨hinv', hall⟩ := put_keeps
    (q := .start config.issuer config.jwks_url missed) (a := a) hinv
    ((hinv config.issuer).start hcon (hres _ _ hhel.2)) hhel.owner
  refine ⟨hinv', hall, ?_, trivial⟩
  rw [put_same]
  exact hhel.1

def Fetched (i : ι) (issuer : Text) : Awaited (Option KeyMap) → World ι → Prop
  | .ready fetched => Held i issuer fun set _ => set.fetch.succeeded = fetched.isSome
  | .dropped => Held i issuer fun _ _ => True

theorem serves_fetched (a : Awaited (Option KeyMap)) : Grants sets i (Held i issuer fun _ _ => True)
      (.fetched issuer) a (Fetched i issuer a) := by
  intro w w' hinv hhel hser _
  cases a with
  | dropped =>
    obtain rfl : w' = w := hser
    exact ⟨hinv, allowed_refl w' _, hhel⟩
  | ready fetched =>
    obtain rfl : w' = w.put issuer ((w.sets issuer).finish fetched) := hser
    obtain ⟨hinv', hall⟩ := put_keeps (q := .fetched issuer) (a := .ready fetched) hinv
      ((hinv issuer).finish fetched) hhel.owner
    refine ⟨hinv', hall, ?_, ?_⟩
    · rw [put_same]
      exact hhel.1
    · rw [put_same]
      rfl

theorem serves_unlock {J : History → Prop} (a : Unit) :
    Grants sets i (Held i issuer fun set _ => J set.history)
      (.unlock issuer) a fun w => J (w.sets issuer).history := by
  intro w w' hinv hhel hser _
  obtain rfl : w' = w.put issuer ((w.sets issuer).hold none) := hser
  obtain ⟨hinv', hall⟩ := put_keeps (q := .unlock issuer) (a := a) hinv
    ((hinv issuer).hold none) hhel.owner
  refine ⟨hinv', hall, ?_⟩
  show J ((w.put issuer ((w.sets issuer).hold none)).sets issuer).history
  rw [put_same]
  exact hhel.2

/-! ## The calls -/

theorem guarded_leave {α : Type} {result : α} {J : α → History → Prop} :
    Safe sets i (leave issuer result)
      (Held i issuer fun set _ => J result set.history) fun r w => J r (w.sets issuer).history :=
  guarded_ask (stable_held fun _ _ _ _ h => h) serves_unlock fun _ _ _ h => h

theorem guarded_fetch (hcon : config ∈ sets.issuers)
    (hres : ∀ set clock, F set clock → missed = true → Rested sets set clock)
    (hF : ∀ set clock clock', clock ≤ clock' → F set clock → F set clock') :
    Safe sets i (fetch config missed) (Held i config.issuer F)
      fun loaded => Held i config.issuer fun set _ => set.fetch.succeeded = loaded := by
  refine guarded_ask (stable_held hF) (serves_start hcon hres) fun _ => ?_
  refine guarded_ask (stable_held fun _ _ _ _ h => h) serves_fetched fun a => ?_
  cases a with
  | dropped =>
    show Guarded _ _ _ i _ (Held i config.issuer fun _ _ => True) _
    exact guarded_ask (stable_held fun _ _ _ _ h => h) (serves_unlock (J := fun _ => True))
      fun _ => trivial
  | ready fetched => exact fun _ _ h => h

/-- Some key set that was fetched says what the lookup returned. -/
def Justified (kid : Text) (result : KeyLookup) (history : History) : Prop :=
  match result with
  | .Found key => ∃ keys, history.loaded = some keys ∧ keys kid = some key
  | .Unknown => ∃ keys, history.latest = some keys ∧ keys kid = none
  | .Unavailable => True

theorem Sound.found {key : VerifyingKey} (h : Sound sets issuer set clock)
    (hkey : set.keys kid = some key) : Justified kid (.Found key) set.history := by
  rw [h.keys] at hkey
  cases hloa : set.history.loaded with
  | none => exact absurd (hloa ▸ hkey) (by simp)
  | some keys => exact ⟨keys, hloa, by rwa [hloa] at hkey⟩

theorem loaded_of_latest {history : History} {keys : KeyMap} (h : history.latest = some keys) :
    history.loaded = some keys := by
  unfold History.latest at h
  unfold History.loaded
  cases hcom : history.completed with
  | nil => exact absurd (hcom ▸ h) (by simp)
  | cons last rest =>
    rw [hcom, List.head?_cons, Option.join_some] at h
    rw [h]
    rfl

theorem Sound.unknown (h : Sound sets issuer set clock) (hkey : set.keys kid = none)
    (hsuc : set.fetch.succeeded = true) : Justified kid .Unknown set.history := by
  rw [h.succeeded] at hsuc
  obtain ⟨keys, hlat⟩ := Option.isSome_iff_exists.mp hsuc
  rw [h.keys, loaded_of_latest hlat] at hkey
  exact ⟨keys, hlat, hkey⟩

theorem guarded_key (issuer kid : Text) (hiss : ∃ config ∈ sets.issuers, config.issuer = issuer) :
    Safe sets i (sets.key issuer kid) (fun _ => True)
      fun result w => Justified kid result (w.sets issuer).history := by
  unfold KeySets.key
  split
  · rename_i hnone
    obtain ⟨config, hcon, rfl⟩ := hiss
    exact absurd (List.find?_eq_none.mp hnone config hcon) (by simp)
  · rename_i config hfin
    have hcon := List.mem_of_find?_eq_some hfin
    obtain rfl : config.issuer = issuer := by simpa using List.find?_some hfin
    -- The unlocked read.
    refine guarded_ask stable_true serves_cached fun found => ?_
    cases found with
    | some key => exact fun w hinv h => (hinv config.issuer).found h.2
    | none =>
      refine Guarded.pre ?_ fun _ _ _ => trivial
      refine guarded_ask stable_true serves_lock fun a => ?_
      cases a with
      | dropped => trivial
      | ready =>
        -- The read under the mutex: nobody changes the keys until it is given back.
        show Guarded _ _ _ i _ (Held i config.issuer fun _ _ => True) _
        refine guarded_ask (stable_held fun _ _ _ _ h => h) serves_cached fun found => ?_
        cases found with
        | some key =>
          exact guarded_leave.pre fun w hinv h => ⟨h.1.1, (hinv config.issuer).found h.2⟩
        | none =>
          have hmis : ∀ w, Held i config.issuer (fun _ _ => True) w ∧
              (w.sets config.issuer).keys kid = none →
              Held i config.issuer (fun set _ => set.keys kid = none) w := fun w h => ⟨h.1.1, h.2⟩
          refine Guarded.pre ?_ fun w _ => hmis w
          refine guarded_ask (stable_held fun _ _ _ _ h => h) serves_recent fun recent => ?_
          cases recent with
          | some succeeded =>
            refine guarded_leave.pre fun w hinv h => ⟨h.1, ?_⟩
            obtain ⟨hkey, hsuc⟩ := h.2
            cases succeeded with
            | true => exact (hinv config.issuer).unknown hkey hsuc
            | false => trivial
          | none =>
            refine Guarded.bind (guarded_fetch hcon (fun _ _ h _ => h) ?_) fun loaded => ?_
            · exact fun set clock clock' hle h miss hmiss => (h miss hmiss).trans hle
            cases loaded with
            | false => exact guarded_leave.pre fun w _ h => ⟨h.1, trivial⟩
            | true =>
              refine guarded_ask (stable_held fun _ _ _ _ h => h) serves_cached fun found => ?_
              cases found with
              | some key =>
                exact guarded_leave.pre fun w hinv h => ⟨h.1.1, (hinv config.issuer).found h.2⟩
              | none =>
                exact guarded_leave.pre fun w hinv h =>
                  ⟨h.1.1, (hinv config.issuer).unknown h.2 h.1.2⟩

theorem guarded_refresh : Safe sets i sets.refresh (fun _ => True) fun _ _ => True := by
  refine Guarded.foldlM sets.issuers true (I := fun _ _ _ => True) fun config hcon all _ => ?_
  refine guarded_ask stable_true serves_lock fun a => ?_
  cases a with
  | dropped => trivial
  | ready =>
    show Guarded _ _ _ i _ (Held i config.issuer fun _ _ => True) _
    refine Guarded.bind (guarded_fetch hcon (fun _ _ _ h => absurd h (by simp))
      fun _ _ _ _ h => h) fun loaded => ?_
    exact (guarded_leave (J := fun _ _ => True)).pre fun w _ h => ⟨h.1, trivial⟩

variable [DecidableEq ι]

def World.initial (ι : Type) (clock : ℕ) : World ι := ⟨fun _ => .default ι, clock⟩

def invoked (sets : KeySets) (calls : ι → Invocation) (clock : ℕ) :
    Config ι (World ι) Request Answer Dropped Outcome :=
  ⟨.initial ι clock, fun i => .live ((calls i).call sets)⟩

def Promised (sets : KeySets) (invocation : Invocation) (outcome : Outcome) (w : World ι) : Prop :=
  match invocation, outcome with
  | .key issuer kid, .lookup result =>
    (∃ config ∈ sets.issuers, config.issuer = issuer) →
      Justified kid result (w.sets issuer).history
  | _, _ => True

omit [DecidableEq ι] in
theorem sound_default (issuer : Text) (clock : ℕ) :
    Sound sets issuer (IssuerKeys.default ι) clock :=
  ⟨rfl, rfl, rfl, fun _ h => absurd h List.not_mem_nil, List.Pairwise.nil,
    fun _ h => absurd h List.not_mem_nil⟩

omit [DecidableEq ι] in
theorem guarded_call (invocation : Invocation) : Safe sets i (invocation.call sets) (fun _ => True)
      (Promised sets invocation) := by
  cases invocation with
  | key issuer kid =>
    by_cases hiss : ∃ config ∈ sets.issuers, config.issuer = issuer
    · exact Guarded.bind (guarded_key issuer kid hiss) fun result w _ h _ => h
    · -- An issuer that is not configured is answered at once.
      have hnone : sets.issuers.find? (fun set => set.issuer == issuer) = none := by
        rw [List.find?_eq_none]
        intro config hcon heq
        exact hiss ⟨config, hcon, by simpa using heq⟩
      have hkey : sets.key issuer kid = pure .Unknown := by
        unfold KeySets.key
        rw [hnone]
      show Guarded _ _ _ i (sets.key issuer kid >>= fun result => pure (Outcome.lookup result)) _ _
      rw [hkey]
      exact fun w _ _ h => absurd h hiss
  | refresh => exact Guarded.bind guarded_refresh fun _ _ _ _ => trivial

/-- **The cache answers by its last fetch.** -/
theorem lookup_follows_last_fetch {join : Text → Option Text} {issuers : List Text}
    {min_refresh_interval clock : ℕ} {calls : ι → Invocation}
    {c : Config ι (World ι) Request Answer Dropped Outcome}
    (hnew : KeySets.new join issuers min_refresh_interval = some sets)
    (hreach : Reach (cache sets ι) (fun _ _ _ => True) (invoked sets calls clock) c) :
    (∀ l c' i issuer kid result, Step (cache sets ι) c l c' → calls i = .key issuer kid →
      c'.pool i = .live (.done (.ok (.lookup result))) →
      c.pool i ≠ .live (.done (.ok (.lookup result))) →
      (∃ config ∈ sets.issuers, config.issuer = issuer) →
      Justified kid result (c'.world.sets issuer).history) ∧
    ∀ issuer, ((c.world.sets issuer).history.misses.Pairwise fun later earlier =>
        earlier + sets.min_refresh_interval ≤ later) ∧
      ∀ url ∈ (c.world.sets issuer).history.targets, issuer ∈ issuers ∧ join issuer = some url := by
  have hsta : Disciplined (cache sets ι) (fun _ _ _ => True) (discipline sets ι)
      (fun i => Promised sets (calls i)) (invoked sets calls clock) := by
    refine ⟨fun issuer => sound_default issuer clock, fun i x hx => Or.inr ?_⟩
    obtain rfl := Thread.live.inj hx
    exact ⟨fun _ => True, stable_true, guarded_call (calls i), trivial⟩
  have hpro := hsta.reach discipline_sound hreach
  refine ⟨fun l c' i issuer kid result hste hcal hdon hbef hiss => ?_, fun issuer => ?_⟩
  · rcases (hpro.step discipline_sound hste trivial).2.2 i _ hdon with hold | hkep
    · exact absurd hold hbef
    · simp only [hcal, Promised] at hkep
      exact hkep hiss
  · have hsou := hpro.inv issuer
    refine ⟨hsou.apart, fun url hurl => ?_⟩
    obtain ⟨config, hcon, rfl, rfl⟩ := hsou.targets url hurl
    exact mem_new hnew hcon

/-! ## Two lookups of one key -/

def sample_sets : KeySets := ⟨[⟨['i'], ['u']⟩], 10⟩

def sample_key : VerifyingKey := ⟨[1], [2]⟩

def sample_map : KeyMap := fun kid => if kid = ['k'] then some sample_key else none

def sample_calls : Bool → Invocation := fun _ => .key ['i'] ['k']

section Run

variable {c₀ c : Config Bool (World Bool) Request Answer Dropped Outcome} {w : World Bool}
  {k : Answer q → KeyCall Outcome}

theorem stepped (_ : Reach (cache sample_sets Bool) (fun _ _ _ => True) c₀ c) (i : Bool)
    (hi : c.pool i = .live (.ask q k)) (a : Answer q) (hser : serve sample_sets i q c.world a w) :
    Step (cache sample_sets Bool) c (.asked i q a) ⟨w, update c.pool i (.live (k a))⟩ :=
  .asked hi hser

theorem asked (h : Reach (cache sample_sets Bool) (fun _ _ _ => True) c₀ c) (i : Bool)
    (hi : c.pool i = .live (.ask q k)) (a : Answer q) (hser : serve sample_sets i q c.world a w) :
    Reach (cache sample_sets Bool) (fun _ _ _ => True) c₀ ⟨w, update c.pool i (.live (k a))⟩ :=
  h.step (stepped h i hi a hser) trivial

end Run

/-- Neither lookup finds the key. One has the mutex and fetches while the other waits for it; the
other then finds the key, and the set has been fetched once. -/
theorem sample_lookup_justified : ∃ c c',
    Reach (cache sample_sets Bool) (fun _ _ _ => True) (invoked sample_sets sample_calls 7) c ∧
    Step (cache sample_sets Bool) c (.asked false (.unlock ['i']) ()) c' ∧
    c'.pool true = .live (.done (.ok (.lookup (.Found sample_key)))) ∧
    c'.pool false = .live (.done (.ok (.lookup (.Found sample_key)))) ∧
    Justified ['k'] (.Found sample_key) (c'.world.sets ['i']).history ∧
    (c.world.sets ['i']).history.misses = [7] ∧
    (c.world.sets ['i']).history.targets = [['u']] ∧
    ∀ url ∈ (c.world.sets ['i']).history.targets, some ['u'] = some url := by
  have h₀ : Reach (cache sample_sets Bool) (fun _ _ _ => True) (invoked sample_sets sample_calls 7)
    (invoked sample_sets sample_calls 7) := .refl
  have h₁ := asked h₀ true rfl none ⟨rfl, rfl⟩
  have h₂ := asked h₁ false rfl none ⟨rfl, rfl⟩
  have h₃ := asked h₂ true rfl (.ready ()) ⟨rfl, rfl⟩
  have h₄ := asked h₃ true rfl none ⟨rfl, rfl⟩
  have h₅ := asked h₄ true rfl none ⟨rfl, rfl⟩
  have h₆ := asked h₅ true rfl () rfl
  have h₇ := asked h₆ true rfl (.ready (some sample_map)) rfl
  have h₈ := asked h₇ true rfl (some sample_key) ⟨rfl, rfl⟩
  have h₉ := asked h₈ true rfl () rfl
  have h₁₀ := asked h₉ false rfl (.ready ()) ⟨rfl, rfl⟩
  have h₁₁ := asked h₁₀ false rfl (some sample_key) ⟨rfl, rfl⟩
  have hunl := stepped h₁₁ false rfl () rfl
  have hnew : KeySets.new (fun _ => some ['u']) [['i']] 10 = some sample_sets := rfl
  have hfollows := lookup_follows_last_fetch hnew h₁₁
  refine ⟨_, _, h₁₁, hunl, rfl, rfl, ?_, rfl, rfl,
    fun url hurl => ((hfollows.2 ['i']).2 url hurl).2⟩
  exact hfollows.1 _ _ false ['i'] ['k'] _ hunl rfl rfl
    (fun h => absurd (Thread.live.inj h) nofun) ⟨⟨['i'], ['u']⟩, List.mem_singleton.mpr rfl, rfl⟩

end SovereignConfig.Auth
