/-
Requests counted by protocol version (`metrics.rs`, `protocol.rs`). A collection makes two loads
for a version, and requests go on in between. `Progress` is history that nothing reads.
-/
import SovereignConfig.Auth.Routes
import SovereignConfig.Lib.Guarded

namespace SovereignConfig.Metrics

open Lib List Function

open Protocol (Method attribute_request)

def UNRECOGNISED_PROTOCOL_LABEL : Text := "unrecognised".toList

structure ProtocolMetrics where
  attempted : ℕ → ℕ
  authenticated : ℕ → ℕ
  unrecognised : ℕ

def ProtocolMetrics.new : ProtocolMetrics := ⟨fun _ => 0, fun _ => 0, 0⟩

def counters (versions : List Text) (version : Text) : Option ℕ :=
  versions.findIdx? (· == version)

def ProtocolMetrics.record_attempted (self : ProtocolMetrics) (versions : List Text)
    (version : Text) : ProtocolMetrics :=
  match counters versions version with
  | some n => { self with attempted := update self.attempted n (self.attempted n + 1) }
  | none => { self with unrecognised := self.unrecognised + 1 }

def ProtocolMetrics.record_authenticated (self : ProtocolMetrics) (versions : List Text)
    (version : Text) : ProtocolMetrics :=
  match counters versions version with
  | some n =>
    { self with authenticated := update self.authenticated n (self.authenticated n + 1) }
  | none => self

section Counts

variable (self : ProtocolMetrics) (versions : List Text) (version : Text) (n : ℕ)

@[simp] theorem record_attempted_attempted : (self.record_attempted versions version).attempted n =
      self.attempted n + if counters versions version = some n then 1 else 0 := by
  unfold ProtocolMetrics.record_attempted
  cases counters versions version with
  | none => simp
  | some m => by_cases hn : n = m <;> simp [hn, Ne.symm]

@[simp] theorem record_attempted_authenticated :
    (self.record_attempted versions version).authenticated = self.authenticated := by
  unfold ProtocolMetrics.record_attempted
  split <;> rfl

@[simp] theorem record_authenticated_attempted :
    (self.record_authenticated versions version).attempted = self.attempted := by
  unfold ProtocolMetrics.record_authenticated
  split <;> rfl

@[simp] theorem record_authenticated_authenticated :
    (self.record_authenticated versions version).authenticated n =
      self.authenticated n + if counters versions version = some n then 1 else 0 := by
  unfold ProtocolMetrics.record_authenticated
  cases counters versions version with
  | none => simp
  | some m => by_cases hn : n = m <;> simp [hn, Ne.symm]

end Counts

/-! ## Requests and collections -/

inductive Request where
  | record_attempted (version : Text)
  | record_authenticated (version : Text)
  | load_attempted (n : ℕ)
  | load_authenticated (n : ℕ)
  | load_unrecognised

abbrev Answer : Request → Type
  | .record_attempted _ => Unit
  | .record_authenticated _ => Unit
  | .load_attempted _ => ℕ
  | .load_authenticated _ => ℕ
  | .load_unrecognised => ℕ

structure VersionSample where
  version : Text
  attempted : ℕ
  authenticated : ℕ
deriving DecidableEq

structure Collection where
  versions : List VersionSample
  unrecognised : ℕ
deriving DecidableEq

abbrev MetricsCall := Call Request Answer Empty

def ask (q : Request) : MetricsCall (Answer q) := .ask q fun a => .done (.ok a)

/-- `ProtocolVersionService::call`, and the layer within that counts the request again where it
`passes` authentication. -/
def call (recognised : List Text) (method : Method) (path : Text) (passes : Bool) :
    MetricsCall Unit :=
  match attribute_request method path recognised with
  | .Served version => do
    ask (.record_attempted version)
    if passes then ask (.record_authenticated version) else return ()
  | .UnservedVersion | .Unrecognised => ask (.record_attempted UNRECOGNISED_PROTOCOL_LABEL)
  | .Unversioned | .NotProtocolTraffic => return ()

/-- One round of the loop of `observe`. -/
def observe_version (samples : List VersionSample) (version : Text × ℕ) :
    MetricsCall (List VersionSample) := do
  let attempted ← ask (.load_attempted version.2)
  let authenticated ← ask (.load_authenticated version.2)
  return samples ++ [⟨version.1, attempted, authenticated⟩]

/-- `ProtocolMetrics::observe` of the requests. -/
def observe (versions : List Text) : MetricsCall Collection := do
  let samples ← versions.zipIdx.foldlM observe_version []
  let unrecognised ← ask .load_unrecognised
  return ⟨samples, unrecognised⟩

inductive Invocation where
  | request (recognised : List Text) (method : Method) (path : Text) (passes : Bool)
  | collect

def Invocation.call (versions : List Text) : Invocation → MetricsCall (Option Collection)
  | .request recognised method path passes => do
    Metrics.call recognised method path passes
    return none
  | .collect => do return some (← observe versions)

def metrics (versions : List Text) (ι : Type) : System ι ProtocolMetrics Request Answer where
  serve _ request w answer w' :=
    match request, answer with
    | .record_attempted version, () => w' = w.record_attempted versions version
    | .record_authenticated version, () => w' = w.record_authenticated versions version
    | .load_attempted n, value => value = w.attempted n ∧ w' = w
    | .load_authenticated n, value => value = w.authenticated n ∧ w' = w
    | .load_unrecognised, value => value = w.unrecognised ∧ w' = w
  crash _ w w' := w' = w
  idle w w' := w' = w

/-! ## What has happened -/

/-- A collection between the two loads of a version: the version, what it loaded, and the
requests that had arrived by then. -/
structure Between (ι : Type) where
  version : ℕ
  attempted : ℕ
  arrived : Finset ι

structure Progress (ι : Type) where
  arrived : Finset ι
  pending : ℕ → Finset ι
  between : ι → Option (Between ι)

def Progress.start (ι : Type) : Progress ι := ⟨∅, fun _ => ∅, fun _ => none⟩

variable {ι : Type} [DecidableEq ι]

def Progress.arrive (p : Progress ι) (i : ι) (slot : Option ℕ) : Progress ι :=
  { p with
    arrived := insert i p.arrived
    pending := fun n => if slot = some n then insert i (p.pending n) else p.pending n }

def Progress.pass (p : Progress ι) (i : ι) (slot : Option ℕ) : Progress ι :=
  { p with pending := fun n => if slot = some n then (p.pending n).erase i else p.pending n }

def Progress.enter (p : Progress ι) (i : ι) (n value : ℕ) : Progress ι :=
  { p with between := update p.between i (some ⟨n, value, p.arrived⟩) }

def Progress.leave (p : Progress ι) (i : ι) : Progress ι :=
  { p with between := update p.between i none }

def note (versions : List Text) (_ : ProtocolMetrics) (l : Label ι Request Answer)
    (_ : ProtocolMetrics) (p : Progress ι) : Progress ι :=
  match l with
  | .asked i (.record_attempted version) _ => p.arrive i (counters versions version)
  | .asked i (.record_authenticated version) _ => p.pass i (counters versions version)
  | .asked i (.load_attempted n) value => p.enter i n value
  | .asked i (.load_authenticated _) _ => p.leave i
  | .asked _ .load_unrecognised _ => p
  | .crashed _ => p
  | .idled => p

def AuthenticatedArrivedBefore (versions : List Text) (u : ProtocolMetrics × Progress ι)
    (l : Label ι Request Answer) (_ : ProtocolMetrics × Progress ι) : Prop :=
  ∀ i version a n, l = .asked i (.record_authenticated version) a →
    counters versions version = some n →
      ∀ o b, u.2.between o = some b → b.version = n → i ∈ b.arrived

/-- The counters agree with what has happened. Of the requests that had arrived when a collection
made its first load, those not authenticated yet still have their place in what it loaded. -/
structure Counted (u : ProtocolMetrics × Progress ι) : Prop where
  pending : ∀ n, u.2.pending n ⊆ u.2.arrived
  counted : ∀ n, u.1.authenticated n + (u.2.pending n).card ≤ u.1.attempted n
  between : ∀ o b, u.2.between o = some b → b.arrived ⊆ u.2.arrived ∧
    u.1.authenticated b.version + (b.arrived ∩ u.2.pending b.version).card ≤ b.attempted

theorem Counted.start : Counted (ProtocolMetrics.new, Progress.start ι) :=
  ⟨fun _ => Finset.Subset.refl _, fun _ => Nat.le_refl _, nofun⟩

variable {versions : List Text} {u : ProtocolMetrics × Progress ι} {i : ι}

theorem Counted.record_attempted (h : Counted u) (version : Text) (hi : i ∉ u.2.arrived) :
    Counted (u.1.record_attempted versions version, u.2.arrive i (counters versions version)) := by
  have hgro : u.2.arrived ⊆ insert i u.2.arrived := Finset.subset_insert i _
  refine ⟨fun n => ?_, fun n => ?_, fun o b hb => ?_⟩
  · show (if _ then _ else _) ⊆ insert i u.2.arrived
    split
    · exact Finset.insert_subset_insert i (h.pending n)
    · exact (h.pending n).trans hgro
  · have hcou := h.counted n
    have hfre : i ∉ u.2.pending n := fun hn => hi (h.pending n hn)
    simp only [record_attempted_attempted, record_attempted_authenticated, Progress.arrive]
    split
    · rw [Finset.card_insert_of_notMem hfre]
      omega
    · omega
  · obtain ⟨harr, hle⟩ := h.between o b hb
    refine ⟨harr.trans hgro, ?_⟩
    -- The collection loaded before the request arrived: it is not in its set.
    have hnot : i ∉ b.arrived := fun hmem => hi (harr hmem)
    simp only [record_attempted_authenticated, Progress.arrive]
    split
    · rwa [Finset.inter_insert_of_notMem hnot]
    · exact hle

theorem Counted.record_authenticated (h : Counted u) (version : Text)
    (hpen : ∀ n, counters versions version = some n → i ∈ u.2.pending n)
    (hsee : ∀ n, counters versions version = some n →
      ∀ o b, u.2.between o = some b → b.version = n → i ∈ b.arrived) :
    Counted (u.1.record_authenticated versions version,
      u.2.pass i (counters versions version)) := by
  refine ⟨fun n => ?_, fun n => ?_, fun o b hb => ?_⟩
  · show (if _ then _ else _) ⊆ u.2.arrived
    split
    · exact (Finset.erase_subset i _).trans (h.pending n)
    · exact h.pending n
  · have hcou := h.counted n
    simp only [record_authenticated_attempted, record_authenticated_authenticated, Progress.pass]
    split
    · rename_i hn
      have hcar := Finset.card_erase_add_one (hpen n hn)
      omega
    · omega
  · obtain ⟨harr, hle⟩ := h.between o b hb
    refine ⟨harr, ?_⟩
    simp only [record_authenticated_authenticated, Progress.pass]
    split
    · -- The request leaves the set of those still to be authenticated, which makes its room.
      rename_i hn
      have hmem : i ∈ b.arrived ∩ u.2.pending b.version :=
        Finset.mem_inter.mpr ⟨hsee _ hn o b hb rfl, hpen _ hn⟩
      have hcar := Finset.card_erase_add_one hmem
      rw [Finset.inter_erase]
      omega
    · exact hle

theorem Counted.load_attempted (h : Counted u) (n : ℕ) :
    Counted (u.1, u.2.enter i n (u.1.attempted n)) := by
  refine ⟨h.pending, h.counted, fun o b hb => ?_⟩
  by_cases ho : o = i
  · subst ho
    obtain rfl : (⟨n, u.1.attempted n, u.2.arrived⟩ : Between ι) = b := by
      simpa [Progress.enter] using hb
    refine ⟨Finset.Subset.refl _, ?_⟩
    simpa [Progress.enter, Finset.inter_eq_right.mpr (h.pending n)] using h.counted n
  · exact h.between o b (by simpa [Progress.enter, update_of_ne ho] using hb)

theorem Counted.load_authenticated (h : Counted u) : Counted (u.1, u.2.leave i) := by
  refine ⟨h.pending, h.counted, fun o b hb => ?_⟩
  by_cases ho : o = i
  · subst ho
    exact absurd hb (by simp [Progress.leave])
  · exact h.between o b (by simpa [Progress.leave, update_of_ne ho] using hb)

/-! ## Requests and collections in one pool -/

def OnlyOwn (u : ProtocolMetrics × Progress ι) (l : Label ι Request Answer)
    (v : ProtocolMetrics × Progress ι) : Prop :=
  ∀ i, l.Foreign i → (i ∈ v.2.arrived ↔ i ∈ u.2.arrived) ∧
    (∀ n, i ∈ v.2.pending n ↔ i ∈ u.2.pending n) ∧ v.2.between i = u.2.between i

theorem note_onlyOwn (w w' : ProtocolMetrics) (l : Label ι Request Answer) (p : Progress ι) :
    OnlyOwn (w, p) l (w', note versions w l w' p) := by
  intro i hfor
  cases l with
  | crashed _ | idled => exact ⟨Iff.rfl, fun _ => Iff.rfl, rfl⟩
  | asked j request answer =>
    have hne : i ≠ j := Ne.symm hfor
    cases request with
    | record_attempted version =>
      refine ⟨by simp [note, Progress.arrive, hne], fun n => ?_, rfl⟩
      simp only [note, Progress.arrive]
      split <;> simp [hne]
    | record_authenticated version =>
      refine ⟨Iff.rfl, fun n => ?_, rfl⟩
      simp only [note, Progress.pass]
      split <;> simp [hne]
    | load_attempted n => exact ⟨Iff.rfl, fun _ => Iff.rfl, by simp [note, Progress.enter, hne]⟩
    | load_authenticated n =>
      exact ⟨Iff.rfl, fun _ => Iff.rfl, by simp [note, Progress.leave, hne]⟩
    | load_unrecognised => exact ⟨Iff.rfl, fun _ => Iff.rfl, rfl⟩

def discipline (ι : Type) [DecidableEq ι] :
    Discipline ι (ProtocolMetrics × Progress ι) Request Answer where
  inv := Counted
  allowed := OnlyOwn

abbrev noted (versions : List Text) (ι : Type) [DecidableEq ι] :
    System ι (ProtocolMetrics × Progress ι) Request Answer :=
  (metrics versions ι).remember (note versions)

theorem discipline_sound : (discipline ι).Sound (noted versions ι) where
  crash i u v hu h := by
    obtain ⟨w, p⟩ := u
    obtain ⟨w', p'⟩ := v
    obtain ⟨rfl, rfl⟩ : w' = w ∧ p' = p := h
    exact ⟨hu, @note_onlyOwn ι _ versions w' w' (.crashed i) p'⟩
  idle u v hu h := by
    obtain ⟨w, p⟩ := u
    obtain ⟨w', p'⟩ := v
    obtain ⟨rfl, rfl⟩ : w' = w ∧ p' = p := h
    exact ⟨hu, @note_onlyOwn ι _ versions w' w' .idled p'⟩

section Calls

variable (versions)

abbrev Watched (i : ι) {α : Type} (x : MetricsCall α) (P : ProtocolMetrics × Progress ι → Prop)
    (R : α → ProtocolMetrics × Progress ι → Prop) : Prop :=
  Guarded (noted versions ι) (AuthenticatedArrivedBefore versions) (discipline ι) i x P R

abbrev Tallies (i : ι) (P : ProtocolMetrics × Progress ι → Prop) (q : Request) (a : Answer q)
    (P' : ProtocolMetrics × Progress ι → Prop) : Prop :=
  Serves (noted versions ι) (AuthenticatedArrivedBefore versions) (discipline ι) i P q a P'

variable {versions}

theorem stable_arrived : Stable (discipline ι) i fun u => i ∉ u.2.arrived :=
  fun _ _ _ _ _ h hfor hown => fun hmem => h ((hown i hfor).1.mp hmem)

theorem stable_pending (slot : Option ℕ) :
    Stable (discipline ι) i fun u => ∀ n, slot = some n → i ∈ u.2.pending n :=
  fun _ _ _ _ _ h hfor hown n hn => ((hown i hfor).2.1 n).mpr (h n hn)

theorem stable_between (n value : ℕ) : Stable (discipline ι) i fun u =>
    ∃ arrived, u.2.between i = some ⟨n, value, arrived⟩ :=
  fun _ _ _ _ _ ⟨arrived, h⟩ hfor hown => ⟨arrived, (hown i hfor).2.2.trans h⟩

theorem stable_true : Stable (discipline ι) i fun _ => True := fun _ _ _ _ _ _ _ _ => trivial

theorem serves_of {q : Request} {a : Answer q} {P P' : ProtocolMetrics × Progress ι → Prop}
    (h : ∀ u w', Counted u → P u → (metrics versions ι).serve i q u.1 a w' →
      AuthenticatedArrivedBefore versions u (.asked i q a) u →
      Counted (w', note versions u.1 (.asked i q a) w' u.2) ∧
        P' (w', note versions u.1 (.asked i q a) w' u.2)) : Tallies versions i P q a P' := by
  rintro u ⟨w', p'⟩ hu hP ⟨hser, hp⟩ hcon
  obtain rfl : p' = note versions u.1 (.asked i q a) w' u.2 := hp
  obtain ⟨hcou, hP'⟩ := h u w' hu hP hser hcon
  exact ⟨hcou, note_onlyOwn _ _ _ _, hP'⟩

theorem serves_record_attempted (version : Text) (a : Unit) :
    Tallies versions i (fun u => i ∉ u.2.arrived) (.record_attempted version) a
      fun u => ∀ n, counters versions version = some n → i ∈ u.2.pending n := by
  refine serves_of fun u w' hu hi hser _ => ?_
  obtain rfl : w' = u.1.record_attempted versions version := hser
  refine ⟨hu.record_attempted version hi, fun n hn => ?_⟩
  simp [note, Progress.arrive, hn]

theorem serves_record_authenticated (version : Text) (a : Unit) :
    Tallies versions i (fun u => ∀ n, counters versions version = some n → i ∈ u.2.pending n)
      (.record_authenticated version) a fun _ => True := by
  refine serves_of fun u w' hu hpen hser hcon => ?_
  obtain rfl : w' = u.1.record_authenticated versions version := hser
  exact ⟨hu.record_authenticated version hpen fun n hn => hcon i version a n rfl hn, trivial⟩

theorem serves_load_attempted (n value : ℕ) :
    Tallies versions i (fun _ => True) (.load_attempted n) value
      fun u => ∃ arrived, u.2.between i = some ⟨n, value, arrived⟩ := by
  refine serves_of fun u w' hu _ hser _ => ?_
  obtain ⟨rfl, rfl⟩ : value = u.1.attempted n ∧ w' = u.1 := hser
  exact ⟨hu.load_attempted n, u.2.arrived, by simp [note, Progress.enter]⟩

theorem serves_load_authenticated (n value attempted : ℕ) :
    Tallies versions i (fun u => ∃ arrived, u.2.between i = some ⟨n, attempted, arrived⟩)
      (.load_authenticated n) value fun _ => value ≤ attempted := by
  refine serves_of fun u w' hu hbet hser _ => ?_
  obtain ⟨rfl, rfl⟩ : value = u.1.authenticated n ∧ w' = u.1 := hser
  obtain ⟨arrived, hb⟩ := hbet
  have hle : u.1.authenticated n + (arrived ∩ u.2.pending n).card ≤ attempted :=
    (hu.between i _ hb).2
  exact ⟨hu.load_authenticated, by omega⟩

theorem serves_load_unrecognised (value : ℕ) :
    Tallies versions i (fun _ => True) .load_unrecognised value fun _ => True := by
  refine serves_of fun u w' hu _ hser _ => ?_
  obtain ⟨rfl, rfl⟩ : value = u.1.unrecognised ∧ w' = u.1 := hser
  exact ⟨hu, trivial⟩

theorem guarded_call (recognised : List Text) (method : Method) (path : Text) (passes : Bool) :
    Watched versions i (call recognised method path passes) (fun u => i ∉ u.2.arrived)
      fun _ _ => True := by
  have hcou : ∀ version, Watched versions i (ask (.record_attempted version))
      (fun u => i ∉ u.2.arrived)
      fun _ u => ∀ n, counters versions version = some n → i ∈ u.2.pending n :=
    fun version => Guarded.ask stable_arrived (serves_record_attempted version) fun _ _ _ h => h
  unfold call
  cases attribute_request method path recognised with
  | Served version =>
    refine Guarded.bind (hcou version) fun _ => ?_
    cases passes with
    | true =>
      exact Guarded.ask (stable_pending _) (serves_record_authenticated version) fun _ _ _ _ =>
        trivial
    | false => exact fun _ _ _ => trivial
  | UnservedVersion | Unrecognised =>
    exact (hcou _).conseq (fun _ _ h => h) fun _ _ _ _ => trivial
  | Unversioned | NotProtocolTraffic => exact fun _ _ _ => trivial

def Ordered (samples : List VersionSample) : Prop :=
  ∀ sample ∈ samples, sample.authenticated ≤ sample.attempted

theorem guarded_observe_version (samples : List VersionSample) (version : Text × ℕ) :
    Watched versions i (observe_version samples version) (fun _ => Ordered samples)
      fun samples' _ => Ordered samples' := by
  -- Both loads are of one version, and the samples collected so far are known to be in order.
  by_cases hsam : Ordered samples
  · refine Guarded.pre ?_ fun _ _ _ => trivial
    refine Guarded.ask stable_true (serves_load_attempted version.2) fun attempted => ?_
    refine Guarded.ask (stable_between version.2 attempted)
      (serves_load_authenticated version.2 · attempted) fun authenticated u _ hle => ?_
    intro sample hsamp
    rcases mem_append.mp hsamp with hold | hnew
    · exact hsam sample hold
    · obtain rfl := mem_singleton.mp hnew
      exact hle
  · exact Guarded.absurd fun _ _ h => hsam h

theorem guarded_observe : Watched versions i (observe versions) (fun _ => True)
      fun collection _ => Ordered collection.versions := by
  have hloo : Watched versions i (versions.zipIdx.foldlM observe_version []) (fun _ => True)
      fun samples _ => Ordered samples :=
    (Guarded.foldlM versions.zipIdx [] (I := fun _ samples _ => Ordered samples)
      fun version _ samples _ => guarded_observe_version samples version).pre
        fun _ _ _ => fun _ h => absurd h not_mem_nil
  refine Guarded.bind hloo fun samples => ?_
  by_cases hsam : Ordered samples
  · refine Guarded.pre ?_ fun _ _ _ => trivial
    exact Guarded.ask stable_true serves_load_unrecognised fun _ _ _ _ => hsam
  · exact Guarded.absurd fun _ _ h => hsam h

def Reported (result : Option Collection) : Prop :=
  ∀ collection ∈ result, Ordered collection.versions

theorem guarded_invocation (invocation : Invocation) :
    Watched versions i (invocation.call versions) (fun u => i ∉ u.2.arrived)
      fun result _ => Reported result := by
  cases invocation with
  | request recognised method path passes =>
    exact Guarded.bind (guarded_call recognised method path passes)
      fun _ _ _ _ _ h => absurd h (by simp)
  | collect =>
    refine Guarded.bind (guarded_observe.pre fun _ _ _ => trivial) fun collection _ _ h => ?_
    rintro _ ⟨⟩
    exact h

end Calls

/-! ## Every run -/

def invoked (versions : List Text) (calls : ι → Invocation) :
    Config ι (ProtocolMetrics × Progress ι) Request Answer Empty (Option Collection) :=
  ⟨(.new, .start ι), fun i => .live ((calls i).call versions)⟩

omit [DecidableEq ι] in
theorem reported_of_done {invocation : Invocation} {result : Option Collection}
    (h : invocation.call versions = .done (.ok result)) : Reported result := by
  cases invocation with
  | collect =>
    -- A collection begins with a load: of the first version, or of the unrecognised bucket.
    exfalso
    cases versions with
    | nil => exact nomatch h
    | cons label rest => exact nomatch h
  | request recognised method path passes =>
    simp only [Invocation.call, call] at h
    revert h
    cases attribute_request method path recognised with
    | Served | UnservedVersion | Unrecognised => exact fun h => nomatch h
    | Unversioned | NotProtocolTraffic =>
      intro h
      obtain rfl : none = result := by simpa using h
      exact fun _ h' => absurd h' (by simp)

/-- **Every collection reports at least as many attempts as authentications**, of every version,
in every run in which no request arrives and is authenticated within the two loads of its version
by one collection. -/
theorem collections_ordered_when (versions : List Text) (calls : ι → Invocation)
    {c : Config ι (ProtocolMetrics × Progress ι) Request Answer Empty (Option Collection)}
    (hreach : Reach ((metrics versions ι).remember (note versions))
      (AuthenticatedArrivedBefore versions) (invoked versions calls) c)
    (i : ι) (collection : Collection) (hdone : c.pool i = .live (.done (.ok (some collection)))) :
    ∀ sample ∈ collection.versions, sample.authenticated ≤ sample.attempted := by
  have hsta : Disciplined (noted versions ι) (AuthenticatedArrivedBefore versions)
      (discipline ι) (fun _ result _ => Reported result) (invoked versions calls) := by
    refine ⟨Counted.start, fun j x hx => Or.inr ?_⟩
    obtain rfl := Thread.live.inj hx
    exact ⟨fun u => j ∉ u.2.arrived, stable_arrived, guarded_invocation (calls j),
      Finset.notMem_empty j⟩
  have hkep := hsta.kept (R := fun _ => Reported) discipline_sound
    (fun j result hj => reported_of_done (Thread.live.inj hj)) hreach i _ hdone
  exact hkep collection rfl

def sample_version : Text := ['v']

def sample_calls : Bool → Invocation
  | false => .collect
  | true => .request [sample_version] .POST "/sovereign.config.v.System/Get".toList true

/-- A request that arrives before the first load and is authenticated between the two is in both
numbers. -/
theorem sample_collection_in_order :
    ∃ c : Config Bool (ProtocolMetrics × Progress Bool) Request Answer Empty (Option Collection),
      Reach ((metrics [sample_version] Bool).remember (note [sample_version]))
        (AuthenticatedArrivedBefore [sample_version]) (invoked [sample_version] sample_calls) c ∧
      c.pool false = .live (.done (.ok (some ⟨[⟨sample_version, 1, 1⟩], 0⟩))) ∧
      ∀ sample ∈ [(⟨sample_version, 1, 1⟩ : VersionSample)],
        sample.authenticated ≤ sample.attempted := by
  have h₀ : Reach (noted [sample_version] Bool) (AuthenticatedArrivedBefore [sample_version])
      (invoked [sample_version] sample_calls) (invoked [sample_version] sample_calls) := .refl
  have h₁ := h₀.step (Step.remembered (i := true) (a := ()) rfl rfl) fun _ _ _ _ h => nomatch h
  have h₂ := h₁.step (Step.remembered (i := false) (a := (1 : ℕ)) rfl ⟨rfl, rfl⟩)
    fun _ _ _ _ h => nomatch h
  have h₃ := h₂.step (Step.remembered (i := true) (a := ()) rfl rfl) (by
    intro i version a n hl _ o b hb _
    obtain rfl : true = i := by injection hl
    cases o with
    | true => exact nomatch hb
    | false =>
      obtain rfl : (⟨0, 1, {true}⟩ : Between Bool) = b := Option.some.inj hb
      exact Finset.mem_singleton_self true)
  have h₄ := h₃.step (Step.remembered (i := false) (a := (1 : ℕ)) rfl ⟨rfl, rfl⟩)
    fun _ _ _ _ h => nomatch h
  have h₅ := h₄.step (Step.remembered (i := false) (a := (0 : ℕ)) rfl ⟨rfl, rfl⟩)
    fun _ _ _ _ h => nomatch h
  exact ⟨_, h₅, rfl, collections_ordered_when [sample_version] sample_calls h₅ false _ rfl⟩

/-- A request that arrives and is authenticated between the two loads is in the second number
alone: nothing attempted, one authenticated. -/
theorem collection_out_of_order :
    ∃ c : Config Bool ProtocolMetrics Request Answer Empty (Option Collection),
      Reach (metrics [sample_version] Bool) (fun _ _ _ => True)
        ⟨.new, fun i => .live ((sample_calls i).call [sample_version])⟩ c ∧
      c.pool false = .live (.done (.ok (some ⟨[⟨sample_version, 0, 1⟩], 0⟩))) := by
  have h₀ : Reach (metrics [sample_version] Bool) (fun _ _ _ => True)
      ⟨.new, fun i => .live ((sample_calls i).call [sample_version])⟩
      ⟨.new, fun i => .live ((sample_calls i).call [sample_version])⟩ := .refl
  have h₁ := h₀.step (Step.asked (i := false) (a := (0 : ℕ)) rfl ⟨rfl, rfl⟩) trivial
  have h₂ := h₁.step (Step.asked (i := true) (a := ()) rfl rfl) trivial
  have h₃ := h₂.step (Step.asked (i := true) (a := ()) rfl rfl) trivial
  have h₄ := h₃.step (Step.asked (i := false) (a := (1 : ℕ)) rfl ⟨rfl, rfl⟩) trivial
  have h₅ := h₄.step (Step.asked (i := false) (a := (0 : ℕ)) rfl ⟨rfl, rfl⟩) trivial
  exact ⟨_, h₅, rfl⟩

end SovereignConfig.Metrics
