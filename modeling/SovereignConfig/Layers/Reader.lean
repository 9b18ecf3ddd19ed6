/-
`sovereign-config-layers/src/reader.rs`: ordered layers read and merged. `Attempts` lists the ways
a request with its one retry can go, and everything above it sees outcomes only.
-/
import SovereignConfig.Ancestors
import SovereignConfig.Client
import SovereignConfig.Lib.Overlay
import SovereignConfig.Lib.Traced
import SovereignConfig.Values.Reads

namespace SovereignConfig.Layers

open Lib Text List ConfigPath
open Values (SubTreeValue ValueContent)

/-! ## The reader -/

inductive OnMissing where
  | Skip
  | Fail
deriving DecidableEq

inductive Naming where
  | Folded
  | AsStored
deriving DecidableEq

def Naming.apply : Naming → Text → Text
  | Folded, name => to_ascii_lowercase name
  | AsStored, name => name

structure LayerReader where
  on_missing : OnMissing
  naming : Naming
deriving DecidableEq

inductive Request where
  | access_token
  | invalidate
  | get_subtree (layer : ConfigPath) (token : Text)
  | reveal_secret (path : ConfigPath) (token : Text)
deriving DecidableEq

def Request.Answer : Request → Type
  | access_token => Except ClientError (Option Text)
  | invalidate => Unit
  | get_subtree _ _ => Except ClientError (List SubTreeValue)
  | reveal_secret _ _ => Except ClientError Text

abbrev Reading (α : Type) : Type := Call Request Request.Answer ClientError α

def get_subtree (layer : ConfigPath) (token : Text) : Reading (List SubTreeValue) :=
  .ask (.get_subtree layer token) .done

def reveal_secret (path : ConfigPath) (token : Text) : Reading Text :=
  .ask (.reveal_secret path token) .done

def invalidate : Reading Unit := .ask .invalidate fun _ => .done (.ok ())

def no_token : ClientError := ⟨.Unauthenticated, "no access token was issued"⟩

def token_of : Except ClientError (Option Text) → Except ClientError Text
  | .error error => .error error
  | .ok none => .error no_token
  | .ok (some token) => .ok token

def token : Reading Text := .ask .access_token fun answer => .done (token_of answer)

def with_token {R : Type} (call : Text → Reading R) : Reading R := do
  let first ← token
  match ← ((call first).attempt : Reading (Except ClientError R)) with
  | .error error =>
    if error.kind = .Unauthenticated then do
      invalidate
      let second ← token
      call second
    else Call.fail error
  | .ok result => return result

def child_offset (layer_fold path_fold : Text) : Option ℕ :=
  if layer_fold = root_text then some 1
  else if starts_with path_fold layer_fold = false ∨ path_fold[layer_fold.length]? ≠ some '/' then
    none
  else some (layer_fold.length + 1)

/-- `str::get(offset..)`, on ASCII. -/
def get_from (text : Text) (offset : ℕ) : Option Text :=
  if offset ≤ text.length then some (text.drop offset) else none

/-- The final segment of `path` exactly as stored, when `path` is a direct child of `layer`. -/
def direct_child_name (layer path : ConfigPath) : Option Text := do
  let offset ← child_offset layer.fold path.fold
  let relative ← get_from path.as_str offset
  if relative.isEmpty = false ∧ contains_char relative '/' = false then some relative else none

namespace LayerReader

/-- One round of the loop of `read`. -/
def read_value (self : LayerReader) (layer : ConfigPath) (values : List (Text × Text))
    (value : SubTreeValue) : Reading (List (Text × Text)) :=
  match (direct_child_name layer value.path).map self.naming.apply with
  | none => return values
  | some name =>
    match value.value with
    | .Plain plain => return values ++ [(name, plain)]
    | .Secret => do
      match ← ((with_token (reveal_secret value.path)).attempt : Reading (Except ClientError Text)) with
      | .ok revealed => return values ++ [(name, revealed)]
      | .error error =>
        if self.on_missing = .Skip ∧ error.kind = .NotFound then return values
        else Call.fail error

def read (self : LayerReader) (layer : ConfigPath) : Reading (List (Text × Text)) := do
  match ← ((with_token (get_subtree layer)).attempt :
      Reading (Except ClientError (List SubTreeValue))) with
  | .ok subtree => subtree.foldlM (self.read_value layer) []
  | .error error =>
    if self.on_missing = .Skip ∧ error.kind = .PermissionDenied then return []
    else if self.on_missing = .Skip ∧ error.kind = .NotFound then return []
    else Call.fail error

/-- One round of the loop of `fetch`. -/
def merge_layer (self : LayerReader) (merged : Std.TreeMap Text Text) (layer : ConfigPath) :
    Reading (Std.TreeMap Text Text) := do
  let values ← self.read layer
  return overlay merged values

def fetch (self : LayerReader) (layers : List ConfigPath) : Reading (Std.TreeMap Text Text) :=
  layers.foldlM self.merge_layer ∅

end LayerReader

/-! ## Direct children -/

theorem append_singleton_prefix_iff {t p : Text} {c : Char} :
    p ++ [c] <+: t ↔ p <+: t ∧ t[p.length]? = some c := by
  constructor
  · rintro ⟨rest, rfl⟩
    exact ⟨⟨c :: rest, by simp⟩, by simp⟩
  · rintro ⟨⟨rest, rfl⟩, hc⟩
    rw [getElem?_append_right (Nat.le_refl _), Nat.sub_self] at hc
    cases rest with
    | nil => simp at hc
    | cons x rest =>
      obtain rfl := Option.some.inj hc
      exact ⟨rest, by simp⟩

variable {path : ConfigPath}

theorem child_offset_eq {layer : ConfigPath} (h : path.path ≠ root_text) :
    child_offset layer.fold path.fold =
      if layer.segs <+: path.segs ∧ layer.segs ≠ path.segs then
        some ((render '/' layer.segs).length + 1) else none := by
  unfold child_offset
  have hseg : path.segs ≠ [] := mt path.segs_eq_nil.mp h
  by_cases hlay : layer.path = root_text
  · have hfol : layer.fold = root_text := by rw [ConfigPath.fold, hlay]; rfl
    have hnil := layer.segs_eq_nil.mpr hlay
    rw [if_pos hfol, hnil, if_pos ⟨ nil_prefix, hseg.symm⟩]
    rfl
  · have hren := fold_eq_render hlay
    have hfol : layer.fold ≠ root_text := hren ▸ render_ne_root layer.foldSegments_segs
    have hgua : ¬ (starts_with path.fold layer.fold = false ∨
        path.fold[layer.fold.length]? ≠ some '/') ↔
        layer.segs <+: path.segs ∧ layer.segs ≠ path.segs := by
      rw [not_or, Bool.not_eq_false, not_not, starts_with_iff, ← append_singleton_prefix_iff,
        hren, fold_eq_render h,
        render_delim_prefix_iff layer.foldSegments_segs.free path.foldSegments_segs.free]
    rw [if_neg hfol]
    by_cases hchi : layer.segs <+: path.segs ∧ layer.segs ≠ path.segs
    · rw [if_pos hchi, if_neg (hgua.mpr hchi), hren]
    · rw [if_neg hchi, if_pos (not_not.mp (mt hgua.mp hchi))]

theorem child_rest {layer : ConfigPath} (h : path.path ≠ root_text)
    (hbel : layer.segs <+: path.segs) (hne : layer.segs ≠ path.segs) :
    ∃ above name rest, path.named = above ++ name :: rest ∧
      above.map to_ascii_lowercase = layer.segs ∧
      get_from path.as_str ((render '/' layer.segs).length + 1) = some (name ++ render '/' rest) := by
  obtain ⟨-, -, hseg⟩ := path.named_spec
  have habo : (path.named.take layer.segs.length).map to_ascii_lowercase = layer.segs := by
    rw [map_take, ← hseg]
    exact (prefix_iff_eq_take.mp hbel).symm
  have hdro : path.named.drop layer.segs.length ≠ [] := by
    intro hnil
    refine hne (hbel.eq_of_length_le ?_)
    rw [hseg, length_map]
    exact drop_eq_nil_iff.mp hnil
  obtain ⟨name, rest, hcon⟩ := exists_cons_of_ne_nil hdro
  have hnam : path.named = path.named.take layer.segs.length ++ name :: rest := by
    rw [← hcon, take_append_drop]
  have hlength : (render '/' layer.segs).length
      = (render '/' (path.named.take layer.segs.length)).length := by
    have hlow : to_ascii_lowercase (render '/' (path.named.take layer.segs.length))
        = render '/' layer.segs := by rw [lower_render, habo]
    rw [← hlow]
    exact length_map ..
  have hpat : path.path = render '/' (path.named.take layer.segs.length)
      ++ '/' :: (name ++ render '/' rest) := by
    rw [path_eq_render h, ← render_cons, ← render_append, ← hnam]
  have hroo : (render '/' (path.named.take layer.segs.length)).length + 1 ≤ path.path.length := by
    rw [hpat, length_append, length_cons]
    omega
  refine ⟨_, name, rest, hnam, habo, ?_⟩
  rw [hlength, get_from, ConfigPath.as_str, if_pos hroo, hpat, ← drop_drop, drop_left,
    drop_one, tail_cons]

/-- **A direct child is one segment further down,** whatever the case of either path, and its name
is that segment as stored. -/
theorem direct_child_name_iff {layer : ConfigPath} {name : Text} :
    direct_child_name layer path = some name ↔
      ∃ above, path.named = above ++ [name] ∧ above.map to_ascii_lowercase = layer.segs := by
  by_cases h : path.path = root_text
  · -- The root is nobody's child.
    have hnam : path.named = [] := by rw [ConfigPath.named, h]; rfl
    refine iff_of_false ?_ (by rintro ⟨above, heq, -⟩; simp [hnam] at heq)
    have hfol : path.fold = root_text := by rw [ConfigPath.fold, h]; rfl
    have hpas : path.fold[layer.fold.length]? = none := by
      rw [getElem?_eq_none_iff, hfol]
      exact layer.root_prefix.length_le
    unfold direct_child_name child_offset
    by_cases hlay : layer.fold = root_text
    · simp [hlay, get_from, ConfigPath.as_str, h, root_text]
    · simp [hlay, hpas]
  · obtain ⟨-, hok, hseg⟩ := path.named_spec
    by_cases hchi : layer.segs <+: path.segs ∧ layer.segs ≠ path.segs
    · obtain ⟨above, last, rest, hnam, habo, hres⟩ := child_rest h hchi.1 hchi.2
      have hname : direct_child_name layer path =
          if (last ++ render '/' rest).isEmpty = false ∧
            contains_char (last ++ render '/' rest) '/' = false then
          some (last ++ render '/' rest) else none := by
        simp only [direct_child_name, child_offset_eq h, if_pos hchi, hres,
          Option.bind_eq_bind, Option.bind_some]
      rw [hname]
      have hlas : segment_ok last = true := hok last (by simp [hnam])
      have hfre : Free '/' [last] := free_of_segments_ok (by simpa using hlas)
      have hnon : last ≠ [] := by
        rintro rfl
        exact absurd hlas (by decide)
      cases rest with
      | nil =>
        have hsla : contains_char last '/' = false := by
          rw [contains_char, any_eq_false]
          exact fun c hc heq => hfre last mem_cons_self (beq_iff_eq.mp heq ▸ hc)
        rw [render_nil, append_nil, if_pos ⟨by simpa using hnon, hsla⟩,
          Option.some.injEq]
        constructor
        · rintro rfl
          exact ⟨above, hnam, habo⟩
        · rintro ⟨above', heq, -⟩
          rw [hnam] at heq
          exact singleton_inj.mp (append_inj' heq rfl).2
      | cons next rest =>
        have hsla : contains_char (last ++ render '/' (next :: rest)) '/' = true := by
          rw [contains_char, any_eq_true]
          exact ⟨'/', by simp, by simp⟩
        rw [hsla]
        refine iff_of_false (by simp) ?_
        rintro ⟨above', heq, habo'⟩
        have hlen : above'.length = above.length := by
          have hmap := congrArg List.length (habo'.trans habo.symm)
          simpa using hmap
        have hcou := congrArg List.length (hnam.symm.trans heq)
        simp only [length_append, length_cons, length_nil] at hcou
        omega
    · have hname : direct_child_name layer path = none := by
        simp only [direct_child_name, child_offset_eq h, if_neg hchi, Option.bind_eq_bind,
          Option.bind_none]
      rw [hname]
      refine iff_of_false (by simp) ?_
      rintro ⟨above, heq, habo⟩
      have hext : path.segs = layer.segs ++ [to_ascii_lowercase name] := by
        rw [hseg, heq, map_append, habo, map_singleton]
      exact hchi ⟨⟨_, hext.symm⟩, fun hsam => by simp [hsam] at hext⟩

/-! ## Outcomes -/

inductive Purpose where
  | read (layer : ConfigPath)
  | reveal (path : ConfigPath)
deriving DecidableEq

namespace Purpose

def Result : Purpose → Type
  | read _ => List SubTreeValue
  | reveal _ => Text

def call : (purpose : Purpose) → Text → Reading purpose.Result
  | read layer => get_subtree layer
  | reveal path => reveal_secret path

def answered : (purpose : Purpose) → Text → Except ClientError purpose.Result →
    Call.Event Request Request.Answer
  | read layer, token, answer => ⟨.get_subtree layer token, answer⟩
  | reveal path, token, answer => ⟨.reveal_secret path token, answer⟩

end Purpose

abbrev Trace : Type := List (Call.Event Request Request.Answer)

def asked_token (answer : Except ClientError (Option Text)) : Call.Event Request Request.Answer :=
  ⟨.access_token, answer⟩

def invalidated : Call.Event Request Request.Answer := ⟨.invalidate, ()⟩

/-- **A request's outcome:** its answer, after it was made once more where the first answer was a
rejected token; or what kept it from being made. -/
inductive Attempts (purpose : Purpose) : Trace → Except ClientError purpose.Result → Prop
  | no_token {answer : Except ClientError (Option Text)} {error : ClientError} :
      token_of answer = .error error → Attempts purpose [asked_token answer] (.error error)
  | answered {first : Text} {outcome : Except ClientError purpose.Result} :
      (∀ error, outcome = .error error → error.kind ≠ .Unauthenticated) →
      Attempts purpose [asked_token (.ok (some first)), purpose.answered first outcome] outcome
  | no_second_token {first : Text} {rejected error : ClientError}
      {answer : Except ClientError (Option Text)} :
      rejected.kind = .Unauthenticated → token_of answer = .error error →
      Attempts purpose [asked_token (.ok (some first)), purpose.answered first (.error rejected),
        invalidated, asked_token answer] (.error error)
  | retried {first second : Text} {rejected : ClientError}
      {outcome : Except ClientError purpose.Result} :
      rejected.kind = .Unauthenticated →
      Attempts purpose [asked_token (.ok (some first)), purpose.answered first (.error rejected),
        invalidated, asked_token (.ok (some second)), purpose.answered second outcome] outcome

variable {purpose : Purpose} {trace : Trace}

theorem traced_call {token : Text} {outcome : Except ClientError purpose.Result}
    (h : (purpose.call token).Traced trace outcome) : trace = [purpose.answered token outcome] := by
  cases purpose <;>
  · obtain ⟨answer, rest, rfl, hdon⟩ := h.of_ask
    obtain ⟨rfl, rfl⟩ := hdon.of_done
    rfl

theorem token_of_eq_ok {answer : Except ClientError (Option Text)} {token : Text}
    (h : token_of answer = .ok token) : answer = .ok (some token) := by
  match answer, h with
  | .ok (some _), h => rw [Except.ok.inj h]

theorem traced_token {outcome : Except ClientError Text} (h : token.Traced trace outcome) :
    ∃ answer, trace = [asked_token answer] ∧ outcome = token_of answer := by
  obtain ⟨answer, rest, rfl, hdon⟩ := h.of_ask
  obtain ⟨rfl, rfl⟩ := hdon.of_done
  exact ⟨answer, rfl, rfl⟩

theorem with_token_attempts {outcome : Except ClientError purpose.Result}
    (h : (with_token purpose.call).Traced trace outcome) : Attempts purpose trace outcome := by
  rcases h.of_bind with ⟨error, htok, rfl⟩ |
    ⟨first, before, after, rfl, htok, hmad⟩
  · obtain ⟨answer, rfl, herr⟩ := traced_token htok
    exact .no_token herr.symm
  · obtain ⟨answer, rfl, hfir⟩ := traced_token htok
    obtain rfl := token_of_eq_ok hfir.symm
    obtain ⟨answer, before, after, rfl, hcal, hgoe⟩ := hmad.of_attempt_bind
    obtain rfl := traced_call hcal
    cases answer with
    | ok result =>
      obtain ⟨rfl, rfl⟩ := hgoe.of_done
      exact .answered fun _ h => nomatch h
    | error rejected =>
      simp only at hgoe
      split_ifs at hgoe with hkin
      · obtain ⟨_, rest, rfl, haga⟩ := hgoe.of_ask
        have hret : (token.bind purpose.call).Traced rest outcome := haga
        rcases hret.of_bind with ⟨error, htok, rfl⟩ |
          ⟨second, before, after, rfl, htok, hretr⟩
        · obtain ⟨answer, rfl, herr⟩ := traced_token htok
          exact .no_second_token hkin herr.symm
        · obtain ⟨answer, rfl, hsec⟩ := traced_token htok
          obtain rfl := token_of_eq_ok hsec.symm
          obtain rfl := traced_call hretr
          exact .retried hkin
      · obtain ⟨rfl, rfl⟩ := hgoe.of_done
        exact .answered fun error herr => Except.error.inj herr ▸ hkin

abbrev Outcome : Type := (purpose : Purpose) × Except ClientError purpose.Result

inductive Spells : Trace → List Outcome → Prop
  | nil : Spells [] []
  | cons {purpose : Purpose} {outcome : Except ClientError purpose.Result} {trace later : Trace}
      {outcomes : List Outcome} :
      Attempts purpose trace outcome → Spells later outcomes →
      Spells (trace ++ later) (⟨purpose, outcome⟩ :: outcomes)

variable {more : List Outcome} {reader : LayerReader} {result : List (Text × Text)}
  {values : List SubTreeValue}

theorem Spells.append {later : Trace} {outcomes : List Outcome} (h : Spells trace outcomes)
    (hmor : Spells later more) : Spells (trace ++ later) (outcomes ++ more) := by
  induction h with
  | nil => exact hmor
  | cons hatt _ ih =>
    rw [append_assoc]
    exact .cons hatt ih

/-! ## What is left out, and what ends the fetch -/

def Tolerated (reader : LayerReader) (purpose : Purpose) (error : ClientError) : Prop :=
  reader.on_missing = .Skip ∧
    match purpose with
    | .read _ => error.kind = .PermissionDenied ∨ error.kind = .NotFound
    | .reveal _ => error.kind = .NotFound

/-- Every failure was one that the reader tolerates. -/
def Passed (reader : LayerReader) (outcomes : List Outcome) : Prop :=
  ∀ outcome ∈ outcomes, ∀ error, outcome.2 = .error error → Tolerated reader outcome.1 error

/-- The last failure is the first that the reader does not tolerate. -/
def Stopped (reader : LayerReader) (outcomes : List Outcome) (error : ClientError) : Prop :=
  ∃ earlier purpose, outcomes = earlier ++ [⟨purpose, .error error⟩] ∧ Passed reader earlier ∧
    ¬ Tolerated reader purpose error

theorem Passed.append {outcomes : List Outcome} (h : Passed reader outcomes)
    (hmor : Passed reader more) : Passed reader (outcomes ++ more) := by
  intro outcome hmem
  rcases mem_append.mp hmem with hmem | hmem
  · exact h outcome hmem
  · exact hmor outcome hmem

theorem Stopped.after {outcomes : List Outcome} {error : ClientError} (h : Passed reader outcomes)
    (hmor : Stopped reader more error) : Stopped reader (outcomes ++ more) error := by
  obtain ⟨earlier, purpose, rfl, hpas, hnot⟩ := hmor
  exact ⟨outcomes ++ earlier, purpose, by simp, h.append hpas, hnot⟩

/-- **However it is answered**, the call stops at the first outcome that is not tolerated, or it
returns a value that is `good` for its outcomes. -/
def Ends {α : Type} (reader : LayerReader) (x : Reading α) (good : List Outcome → α → Prop) :
    Prop :=
  ∀ trace result, x.Traced trace result →
    (∃ outcomes a, result = .ok a ∧ Spells trace outcomes ∧ Passed reader outcomes ∧
      good outcomes a) ∨
    ∃ outcomes error, result = .error error ∧ Spells trace outcomes ∧
      Stopped reader outcomes error

namespace Ends

variable {α β : Type} {reader : LayerReader}

theorem pure {a : α} {good : List Outcome → α → Prop} (h : good [] a) :
    Ends reader (Pure.pure a) good := by
  intro trace result htra
  obtain ⟨rfl, rfl⟩ := htra.of_done
  exact .inl ⟨[], a, rfl, .nil, by simp [Passed], h⟩

variable {good : List Outcome → β → Prop}

theorem bind {x : Reading α} {f : α → Reading β} {first : List Outcome → α → Prop}
    (hx : Ends reader x first)
    (hf : ∀ outcomes a, first outcomes a →
      Ends reader (f a) fun more b => good (outcomes ++ more) b) : Ends reader (x.bind f) good := by
  intro trace result htra
  rcases htra.of_bind with ⟨error, hfir, rfl⟩ |
    ⟨a, before, after, rfl, hfir, hres⟩
  · rcases hx _ _ hfir with ⟨_, _, herr, _⟩ | ⟨outcomes, error', herr, hspe, hsto⟩
    · exact nomatch herr
    · exact .inr ⟨outcomes, error, rfl, hspe, Except.error.inj herr ▸ hsto⟩
  · rcases hx _ _ hfir with ⟨outcomes, a', hok, hspe, hpas, hgoo⟩ | ⟨_, _, hok, _⟩
    · obtain rfl := Except.ok.inj hok
      rcases hf outcomes a hgoo _ _ hres with ⟨more, b, rfl, hspe', hpas', hgoo'⟩ |
        ⟨more, error, rfl, hspe', hsto⟩
      · exact .inl ⟨_, b, rfl, hspe.append hspe', hpas.append hpas', hgoo'⟩
      · exact .inr ⟨_, error, rfl, hspe.append hspe', hsto.after hpas⟩
    · exact nomatch hok

theorem attempt (purpose : Purpose) {k : Except ClientError purpose.Result → Reading β}
    (hgoe : ∀ outcome, (∀ error, outcome = .error error → Tolerated reader purpose error) →
      Ends reader (k outcome) fun more b => good (⟨purpose, outcome⟩ :: more) b)
    (hfai : ∀ error, ¬ Tolerated reader purpose error → k (.error error) = Call.fail error) :
    Ends reader ((with_token purpose.call).attempt.bind k) good := by
  intro trace result htra
  obtain ⟨outcome, before, after, rfl, hmad, hres⟩ := htra.of_attempt_bind
  have hatt := with_token_attempts hmad
  by_cases hpas : ∀ error, outcome = .error error → Tolerated reader purpose error
  · have hone : Passed reader [⟨purpose, outcome⟩] := by
      intro single hsin
      rw [mem_singleton.mp hsin]
      exact hpas
    rcases hgoe outcome hpas _ _ hres with ⟨more, b, rfl, hspe, hpass, hgoo⟩ |
      ⟨more, error, rfl, hspe, hsto⟩
    · exact .inl ⟨_, b, rfl, .cons hatt hspe, hone.append hpass, hgoo⟩
    · exact .inr ⟨_, error, rfl, .cons hatt hspe, hsto.after hone⟩
  · simp only [not_forall, exists_prop] at hpas
    obtain ⟨error, rfl, hnot⟩ := hpas
    rw [hfai error hnot] at hres
    obtain ⟨rfl, rfl⟩ := hres.of_done
    exact .inr ⟨_, error, rfl, .cons hatt .nil, [], purpose, rfl, by simp [Passed], hnot⟩

theorem foldlM {f : β → α → Reading β} {invariant : List α → List Outcome → β → Prop}
    (hste : ∀ done outcomes b a, invariant done outcomes b →
      Ends reader (f b a) fun more b' => invariant (done ++ [a]) (outcomes ++ more) b')
    (l : List α) {done : List α} {outcomes : List Outcome} {b : β}
    (h : invariant done outcomes b) :
    Ends reader (l.foldlM f b) fun more b' => invariant (done ++ l) (outcomes ++ more) b' := by
  induction l generalizing done outcomes b with
  | nil =>
    refine Ends.pure ?_
    simpa using h
  | cons a l ih =>
    rw [foldlM_cons]
    refine Ends.bind (hste done outcomes b a h) fun more b' hnex => ?_
    have hres := ih hnex
    simpa only [append_assoc, singleton_append] using hres

end Ends

/-! ## What a layer contributes -/

def children (layer : ConfigPath) (values : List SubTreeValue) : List SubTreeValue :=
  values.filter fun value => (direct_child_name layer value.path).isSome

def reveals (contents : List (SubTreeValue × Except ClientError Text)) : List Outcome :=
  contents.filterMap fun (value, content) =>
    match value.value with
    | .Plain _ => none
    | .Secret => some ⟨.reveal value.path, content⟩

def contributions (naming : Naming) (layer : ConfigPath)
    (contents : List (SubTreeValue × Except ClientError Text)) : List (Text × Text) :=
  contents.filterMap fun (value, content) =>
    match direct_child_name layer value.path, content with
    | some name, .ok text => some (naming.apply name, text)
    | _, _ => none

def PlainContents (contents : List (SubTreeValue × Except ClientError Text)) : Prop :=
  ∀ entry ∈ contents, ∀ text, entry.1.value = .Plain text → entry.2 = .ok text

theorem PlainContents.append {contents more : List (SubTreeValue × Except ClientError Text)}
    (h : PlainContents contents) (hmor : PlainContents more) : PlainContents (contents ++ more) := by
  intro entry hent
  rcases mem_append.mp hent with hent | hent
  · exact h entry hent
  · exact hmor entry hent

/-- What was read of a layer: the outcome of its read, and the content of each child, which for a
secret is the outcome of its reveal. -/
structure LayerRead where
  layer : ConfigPath
  listing : Except ClientError (List SubTreeValue)
  contents : List (SubTreeValue × Except ClientError Text)

namespace LayerRead

def outcomes (self : LayerRead) : List Outcome :=
  ⟨.read self.layer, self.listing⟩ :: reveals self.contents

def contributed (self : LayerRead) (naming : Naming) : List (Text × Text) :=
  contributions naming self.layer self.contents

/-- The contents are those of the layer's children, in the order of the listing; a layer that could
not be listed has none. -/
structure Faithful (self : LayerRead) : Prop where
  listed : self.contents.map Prod.fst =
    match self.listing with
    | .ok values => children self.layer values
    | .error _ => []
  plain : PlainContents self.contents

end LayerRead

def Listed (reader : LayerReader) (layer : ConfigPath) (values : List SubTreeValue)
    (outcomes : List Outcome) (result : List (Text × Text)) : Prop :=
  ∃ contents, contents.map Prod.fst = children layer values ∧ PlainContents contents ∧
    outcomes = reveals contents ∧ result = contributions reader.naming layer contents

theorem Listed.add {layer : ConfigPath} {outcomes : List Outcome}
    (h : Listed reader layer values outcomes result) {value : SubTreeValue}
    {contents : List (SubTreeValue × Except ClientError Text)}
    (hlis : contents.map Prod.fst = children layer [value]) (hpla : PlainContents contents) :
    Listed reader layer (values ++ [value]) (outcomes ++ reveals contents)
      (result ++ contributions reader.naming layer contents) := by
  obtain ⟨earlier, hearl, hear, rfl, rfl⟩ := h
  refine ⟨earlier ++ contents, ?_, hear.append hpla, ?_, ?_⟩
  · rw [map_append, hearl, hlis, children, children, children, filter_append]
  · exact filterMap_append.symm
  · exact filterMap_append.symm

theorem read_value_ends {layer : ConfigPath} {outcomes : List Outcome} (value : SubTreeValue)
    (h : Listed reader layer values outcomes result) :
    Ends reader (reader.read_value layer result value) fun more result' =>
      Listed reader layer (values ++ [value]) (outcomes ++ more) result' := by
  unfold LayerReader.read_value
  cases hnam : direct_child_name layer value.path with
  | none =>
    have hnone : ([] : List (SubTreeValue × Except ClientError Text)).map Prod.fst =
        children layer [value] := by simp [children, hnam]
    have hadd := h.add hnone (by simp [PlainContents])
    refine Ends.pure ?_
    simpa [reveals, contributions] using hadd
  | some name =>
    have hchi : children layer [value] = [value] := by simp [children, hnam]
    have hone : ∀ content : Except ClientError Text,
        [(value, content)].map Prod.fst = children layer [value] := fun _ => hchi.symm
    rw [Option.map_some]
    cases hval : value.value with
    | Plain plain =>
      have hpla : PlainContents [(value, .ok plain)] := by
        intro entry hent text htex
        rw [mem_singleton.mp hent] at htex ⊢
        rw [hval] at htex
        cases htex
        rfl
      have hadd := h.add (hone (.ok plain)) hpla
      refine Ends.pure ?_
      simpa [reveals, contributions, hval, hnam] using hadd
    | Secret =>
      have hpla : ∀ content, PlainContents [(value, content)] := by
        intro content entry hent text htex
        rw [mem_singleton.mp hent, hval] at htex
        exact nomatch htex
      refine Ends.attempt (.reveal value.path) (fun content hpas => ?_)
        fun error hnot => if_neg hnot
      have hadd := h.add (hone content) (hpla content)
      cases content with
      | ok revealed =>
        refine Ends.pure ?_
        simpa [reveals, contributions, hval, hnam] using hadd
      | error error =>
        have hski : reader.on_missing = .Skip ∧ error.kind = .NotFound := hpas error rfl
        simp only [if_pos hski]
        refine Ends.pure ?_
        simpa [reveals, contributions, hval, hnam] using hadd

theorem read_ends (reader : LayerReader) (layer : ConfigPath) :
    Ends reader (reader.read layer) fun outcomes result =>
      ∃ read : LayerRead, read.layer = layer ∧ read.Faithful ∧ outcomes = read.outcomes ∧
        result = read.contributed reader.naming := by
  refine Ends.attempt (.read layer) (fun listing hpas => ?_) fun error hnot => ?_
  · cases listing with
    | ok values =>
      have hemp : Listed reader layer [] [] [] := ⟨[], rfl, by simp [PlainContents], rfl, rfl⟩
      have hloo := Ends.foldlM (fun done outcomes result value h => read_value_ends value h)
        values hemp
      intro trace result htra
      rcases hloo _ _ htra with ⟨outcomes, result, rfl, hspe, hpass, hlis⟩ | hsto
      · obtain ⟨contents, hcon, hpla, hout, rfl⟩ := hlis
        refine .inl ⟨outcomes, _, rfl, hspe, hpass,
          ⟨layer, .ok values, contents⟩, rfl, ⟨hcon, hpla⟩, ?_, rfl⟩
        exact congrArg _ hout
      · exact .inr hsto
    | error error =>
      obtain ⟨hski, hkin⟩ := hpas error rfl
      have hdon : ∃ read : LayerRead, read.layer = layer ∧ read.Faithful ∧
          [⟨.read layer, .error error⟩] = read.outcomes ∧ [] = read.contributed reader.naming :=
        ⟨⟨layer, .error error, []⟩, rfl, ⟨rfl, by simp [PlainContents]⟩, rfl, rfl⟩
      simp only
      split_ifs with hden habs
      · exact Ends.pure hdon
      · exact Ends.pure hdon
      · rcases hkin with hkin | hkin
        · exact absurd ⟨hski, hkin⟩ hden
        · exact absurd ⟨hski, hkin⟩ habs
  · have hden : ¬ (reader.on_missing = .Skip ∧ error.kind = .PermissionDenied) :=
      fun h => hnot ⟨h.1, .inl h.2⟩
    have habs : ¬ (reader.on_missing = .Skip ∧ error.kind = .NotFound) :=
      fun h => hnot ⟨h.1, .inr h.2⟩
    simp only [if_neg hden, if_neg habs]

/-! ## The fetch -/

def Merged (reader : LayerReader) (layers : List ConfigPath) (outcomes : List Outcome)
    (merged : Std.TreeMap Text Text) : Prop :=
  ∃ reads : List LayerRead, reads.map LayerRead.layer = layers ∧ (∀ read ∈ reads, read.Faithful) ∧
    outcomes = reads.flatMap LayerRead.outcomes ∧
    merged = overlay ∅ (reads.flatMap (·.contributed reader.naming))

theorem merge_layer_ends {layers : List ConfigPath} {outcomes : List Outcome}
    {merged : Std.TreeMap Text Text} (layer : ConfigPath)
    (h : Merged reader layers outcomes merged) :
    Ends reader (reader.merge_layer merged layer) fun more merged' =>
      Merged reader (layers ++ [layer]) (outcomes ++ more) merged' := by
  refine Ends.bind (read_ends reader layer) ?_
  rintro _ _ ⟨read, rfl, hfai, rfl, rfl⟩
  obtain ⟨reads, rfl, hrea, rfl, rfl⟩ := h
  refine Ends.pure ⟨reads ++ [read], by simp, ?_, by simp, ?_⟩
  · intro read' hread'
    rcases mem_append.mp hread' with hread' | hread'
    · exact hrea read' hread'
    · exact mem_singleton.mp hread' ▸ hfai
  · rw [flatMap_append, flatMap_singleton, overlay_append]

theorem fetch_ends (reader : LayerReader) (layers : List ConfigPath) :
    Ends reader (reader.fetch layers) (Merged reader layers) := by
  have hemp : Merged reader [] [] ∅ := ⟨[], rfl, by simp, rfl, rfl⟩
  exact Ends.foldlM (fun done outcomes merged layer h => merge_layer_ends layer h) layers hemp

/-- **Layers are merged in order, and nothing is left out in silence.** -/
theorem layers_merged {reader : LayerReader} {layers : List ConfigPath} {trace : Trace}
    {result : Except ClientError (Std.TreeMap Text Text)}
    (h : (reader.fetch layers).Traced trace result) :
    (∃ outcomes, Spells trace outcomes ∧
      (∀ error, result = .error error → Stopped reader outcomes error) ∧
      ∀ merged, result = .ok merged → Passed reader outcomes ∧
        ∃ reads : List LayerRead, reads.map LayerRead.layer = layers ∧
          (∀ read ∈ reads, read.Faithful) ∧ outcomes = reads.flatMap LayerRead.outcomes ∧
          ∀ name,
            ((∃ text, merged[name]? = some text) ↔
              ∃ read ∈ reads, name ∈ (read.contributed reader.naming).map Prod.fst) ∧
            ∀ text, merged[name]? = some text ↔
              LastOf (reads.flatMap (·.contributed reader.naming)) name text) ∧
    ∀ layer path name, direct_child_name layer path = some name ↔
      ∃ above, path.named = above ++ [name] ∧ above.map to_ascii_lowercase = layer.segs := by
  refine ⟨?_, fun layer path name => direct_child_name_iff⟩
  rcases fetch_ends reader layers _ _ h with ⟨outcomes, merged, rfl, hspe, hpas, hmer⟩ |
    ⟨outcomes, error, rfl, hspe, hsto⟩
  · refine ⟨outcomes, hspe, fun _ herr => (nomatch herr), fun merged' hok => ?_⟩
    obtain rfl := Except.ok.inj hok
    obtain ⟨reads, hlay, hfai, hout, rfl⟩ := hmer
    refine ⟨hpas, reads, hlay, hfai, hout, fun name =>
      ⟨?_, fun text => overlay_empty⟩⟩
    simp only [overlay_empty, exists_lastOf, map_flatMap, mem_flatMap]
  · refine ⟨outcomes, hspe, fun error' herr => ?_, fun _ hok => (nomatch hok)⟩
    exact Except.error.inj herr ▸ hsto

def skipping : LayerReader := ⟨.Skip, .Folded⟩
def layer_a : ConfigPath := ⟨"/a".toList, canonical_a⟩
def layer_b : ConfigPath := ⟨"/b".toList, canonical_b⟩

def two_layers : Trace :=
  [asked_token (.ok (some "t".toList)),
    (Purpose.read layer_a).answered "t".toList
      (.ok [⟨⟨"/A/X".toList, by decide⟩, .Plain "1".toList⟩]),
    asked_token (.ok (some "t".toList)),
    (Purpose.read layer_b).answered "t".toList (.error ⟨.Unauthenticated, "expired"⟩),
    invalidated,
    asked_token (.ok (some "u".toList)),
    (Purpose.read layer_b).answered "u".toList (.error ⟨.NotFound, "absent"⟩)]

theorem two_layers_merged : ∃ merged outcomes,
    (skipping.fetch [layer_a, layer_b]).Traced two_layers (.ok merged) ∧
      merged["x".toList]? = some "1".toList ∧ Spells two_layers outcomes ∧
      Passed skipping outcomes := by
  have htra : (skipping.fetch [layer_a, layer_b]).Traced two_layers
      (.ok (overlay ∅ [("x".toList, "1".toList)])) :=
    .ask _ (.ask _ (.ask _ (.ask _ (.ask _ (.ask _ (.ask _ (.done _)))))))
  obtain ⟨⟨outcomes, hspe, -, hok⟩, -⟩ := layers_merged htra
  exact ⟨_, outcomes, htra, by decide +kernel, hspe, (hok _ rfl).1⟩

end SovereignConfig.Layers
