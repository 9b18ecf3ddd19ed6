/-
Who may ask the broker for secrets (`signature.rs`): an HTTP message signature in the fixed profile
of the CI server. The key and the hash are parameters.
-/
import SovereignConfig.Lib.Base64
import SovereignConfig.Lib.Checks
import SovereignConfig.Lib.Decimal
import SovereignConfig.Lib.Segments
import SovereignConfig.Text

namespace SovereignConfig.Broker

open Lib Text Base64 List

def SIGNATURE_LABEL : Text := "woodpecker-ci-extensions".toList
def COVERED_COMPONENTS : Text := "(\"@request-target\" \"content-digest\")".toList
def SHA_256 : Text := "sha-256".toList

def ED25519 : Text := "ed25519".toList

def NOT_NEWER_THAN : ℕ := 2
def NOT_OLDER_THAN : ℕ := 10

inductive SignatureError where
  | MissingHeaders
  | NotAscii
  | UnknownLabel
  | MalformedInput
  | UnexpectedComponents
  | UnsupportedAlgorithm
  | CreatedOutOfRange
  | MissingDigest
  | MalformedDigest
  | DigestMismatch
  | BadSignature
deriving DecidableEq

/-! ## The verifier -/

/-- `http::HeaderMap`: names in lower case with their values; a byte of a value is the
character with its number. -/
abbrev HeaderMap := List (Text × Text)

def HeaderMap.get_all (self : HeaderMap) (name : Text) : List Text :=
  (self.filter fun header => header.1 == name).map Prod.snd

def visible (c : Char) : Bool := (32 ≤ c.toNat && c.toNat < 127) || c == '\t'

/-- `HeaderValue::to_str`. -/
def to_str (value : Text) : Option Text := if value.all visible then some value else none

structure SystemTime where
  secs : ℤ
  nanos : Fin 1000000000
  range : -(2 ^ 63) ≤ secs ∧ secs < 2 ^ 63
deriving DecidableEq

/-- `duration_since(UNIX_EPOCH)` in whole seconds; there is none before the epoch. -/
def SystemTime.as_secs (self : SystemTime) : Option ℕ :=
  if self.secs < 0 then none else some self.secs.toNat

/-- An Ed25519 key, as `verify_strict` uses it, and SHA-256. -/
structure Crypto where
  verify_strict : (message signature : List UInt8) → Bool
  sha256 : List UInt8 → List UInt8

def single_header (headers : HeaderMap) (name : Text) : Except SignatureError Text :=
  match headers.get_all name with
  | [] => .error .MissingHeaders
  | [value] => ok_or (to_str value) .NotAscii
  | _ => .error .MalformedInput

structure Members where
  members : List Text
  current : Text
  quoted : Bool
  depth : ℕ
deriving DecidableEq

def Members.next (self : Members) (character : Char) : Except SignatureError Members :=
  let current := self.current ++ [character]
  if character = '"' then .ok { self with current, quoted := !self.quoted }
  else if character = '(' ∧ self.quoted = false then .ok { self with current, depth := self.depth + 1 }
  else if character = ')' ∧ self.quoted = false then
    if self.depth = 0 then .error .MalformedInput
    else .ok { self with current, depth := self.depth - 1 }
  else if character = ',' ∧ self.quoted = false ∧ self.depth = 0 then
    .ok { self with members := self.members ++ [self.current], current := [] }
  else .ok { self with current }

def dictionary_entry (value label : Text) : Except SignatureError Text := do
  let scanned ← value.foldlM Members.next ⟨[], [], false, 0⟩
  ensure (scanned.quoted = false ∧ scanned.depth = 0) .MalformedInput
  let members := scanned.members ++ [scanned.current]
  ensure (members.length = 1) .MalformedInput
  let (key, rest) ← ok_or (split_once '=' (trim (members.headD []))) .MalformedInput
  ensure (trim key = label) .UnknownLabel
  return trim rest

/-- `str::trim_matches`. -/
def trim_matches (c : Char) (t : Text) : Text :=
  ((t.dropWhile (· == c)).reverse.dropWhile (· == c)).reverse

/-- `u64::from_str`. -/
def parse_u64 (text : Text) : Option ℕ :=
  (match text with
    | '+' :: digits => parse_digits digits
    | digits => parse_digits digits).filter fun n => decide (n < 2 ^ 64)

def saturating_add (a b : ℕ) : ℕ := min (a + b) (2 ^ 64 - 1)

structure Parameters where
  created : Option ℕ
  algorithm : Option Text
  expires : Option ℕ
deriving DecidableEq

/-- One round of the loop of `validate_params`. -/
def Parameters.next (self : Parameters) (parameter : Text) : Except SignatureError Parameters :=
  if (trim parameter).isEmpty then .ok self
  else match split_once '=' (trim parameter) with
    | none => .error .MalformedInput
    | some (name, value) =>
      if trim name = "created".toList then
        match parse_u64 (trim value) with
        | none => .error .MalformedInput
        | some created => .ok { self with created := some created }
      else if trim name = "expires".toList then
        match parse_u64 (trim value) with
        | none => .error .MalformedInput
        | some expires => .ok { self with expires := some expires }
      else if trim name = "alg".toList then
        .ok { self with algorithm := some (trim_matches '"' (trim value)) }
      else if trim name = "keyid".toList then
        if trim_matches '"' (trim value) ≠ SIGNATURE_LABEL then .error .UnknownLabel else .ok self
      else if trim name = "nonce".toList ∨ trim name = "tag".toList then .ok self
      else .error .MalformedInput

def validate_params (params : Text) (now : SystemTime) : Except SignatureError Unit := do
  let rest ← ok_or (strip_prefix_of params COVERED_COMPONENTS) .UnexpectedComponents
  let parameters ← (rest.splitOn ';').foldlM Parameters.next ⟨none, none, none⟩
  ensure (parameters.algorithm = some ED25519) .UnsupportedAlgorithm
  let created ← ok_or parameters.created .MalformedInput
  let now_secs ← ok_or now.as_secs .CreatedOutOfRange
  let newest := saturating_add now_secs NOT_NEWER_THAN
  let oldest := now_secs - NOT_OLDER_THAN
  ensure (¬ (newest < created ∨ created < oldest)) .CreatedOutOfRange
  ensure (parameters.expires.any (fun expires => expires < now_secs) = false) .CreatedOutOfRange

/-- A structured-field byte sequence, `:<base64>:`. -/
def decode_byte_sequence (value : Text) : Option (List UInt8) := do
  let inner ← strip_prefix_of (trim value) [':']
  let inner ← (strip_prefix_of inner.reverse [':']).map reverse
  STANDARD.decode inner

/-- One round of the loop of `verify_digest`. -/
def digest_member (actual : List UInt8) (checked : Bool) (member : Text) :
    Except SignatureError Bool :=
  match split_once '=' (trim member) with
  | none => .error .MalformedDigest
  | some (algorithm, value) =>
    if trim algorithm ≠ SHA_256 then .ok checked
    else match decode_byte_sequence (trim value) with
      | none => .error .MalformedDigest
      | some expected => if actual = expected then .ok true else .error .DigestMismatch

def verify_digest (crypto : Crypto) (header : Text) (body : List UInt8) :
    Except SignatureError Unit := do
  let actual := crypto.sha256 body
  let checked ← (header.splitOn ',').foldlM (digest_member actual) false
  ensure (checked = true) .MalformedDigest

def TARGET_LINE : Text := "\"@request-target\": ".toList
def DIGEST_LINE : Text := "\"content-digest\": ".toList
def PARAMS_LINE : Text := "\"@signature-params\": ".toList

def signature_base (request_target digest params : Text) : Text :=
  (TARGET_LINE ++ request_target) ++ '\n' ::
    ((DIGEST_LINE ++ digest) ++ '\n' :: (PARAMS_LINE ++ params))

def missing_digest : SignatureError → SignatureError
  | .MissingHeaders => .MissingDigest
  | other => other

def verify (crypto : Crypto) (request_target : Text) (headers : HeaderMap) (body : List UInt8)
    (now : SystemTime) : Except SignatureError Unit := do
  let input ← single_header headers "signature-input".toList
  let signature ← single_header headers "signature".toList
  let params ← dictionary_entry input SIGNATURE_LABEL
  validate_params params now
  let digest ← (single_header headers "content-digest".toList).mapError missing_digest
  verify_digest crypto digest body
  let raw_signature ← dictionary_entry signature SIGNATURE_LABEL
  let bytes ← ok_or (decode_byte_sequence raw_signature) .MalformedInput
  ensure (bytes.length = 64) .MalformedInput
  let base := signature_base request_target (trim digest) params
  ensure (crypto.verify_strict (as_bytes base) bytes = true) .BadSignature

/-! ## Texts in headers -/

def content_digest (crypto : Crypto) (body : List UInt8) : Text :=
  SHA_256 ++ '=' :: ':' :: (STANDARD.encode (crypto.sha256 body) ++ [':'])

def ordinary (c : Char) : Bool :=
  32 < c.toNat && c.toNat < 127 && c != '"' && c != '(' && c != ')' && c != ','

variable {c : Char} {n created : ℕ} {t params target name value u : Text} {self : Parameters}
  {now : SystemTime} {headers : HeaderMap} {body signature : List UInt8} {crypto : Crypto}
  {fields : List Text}

theorem ordinary_encode {bytes : List UInt8} (h : c ∈ STANDARD.encode bytes) : ordinary c = true := by
  have halp : Base64.alphabet.all ordinary = true := by decide +kernel
  rcases Base64.mem_encode h with hc | rfl
  · exact all_eq_true.mp halp c hc
  · decide

theorem ordinary_content_digest {crypto : Crypto} {body : List UInt8} {c : Char}
    (h : c ∈ content_digest crypto body) : ordinary c = true := by
  have hnam : SHA_256.all ordinary = true := by decide
  simp only [content_digest, mem_append, mem_cons, not_mem_nil, or_false] at h
  rcases h with hc | rfl | rfl | hc | rfl
  · exact all_eq_true.mp hnam c hc
  · decide
  · decide
  · exact ordinary_encode hc
  · decide

theorem ordinary_digits (h : c ∈ Nat.toDigits 10 n) : ordinary c = true := by
  have hdig := isDigit_toDigits h
  simp only [Char.isDigit, Bool.and_eq_true, decide_eq_true_eq, ge_iff_le,
    UInt32.le_iff_toNat_le] at hdig
  have h0 : '0'.val.toNat = 48 := rfl
  have h9 : '9'.val.toNat = 57 := rfl
  have hne : ∀ d : Char, (d.val.toNat < 48 ∨ 57 < d.val.toNat) → c ≠ d := by
    rintro d hd rfl
    omega
  have hnat : c.toNat = c.val.toNat := rfl
  simp only [ordinary, Bool.and_eq_true, decide_eq_true_eq, bne_iff_ne, hnat]
  refine ⟨⟨⟨⟨⟨by omega, by omega⟩, hne _ ?_⟩, hne _ ?_⟩, hne _ ?_⟩, hne _ ?_⟩ <;> decide

theorem not_whitespace_of_ordinary (h : ordinary c = true) : is_whitespace c = false := by
  simp only [ordinary, Bool.and_eq_true, decide_eq_true_eq] at h
  have hlow := h.1.1.1.1.1
  have hhig := h.1.1.1.1.2
  simp only [is_whitespace, Bool.or_eq_false_iff, Bool.and_eq_false_iff, beq_eq_false_iff_ne,
    decide_eq_false_iff_not]
  omega

theorem trim_ordinary (h : ∀ c ∈ t, ordinary c = true) : trim t = t :=
  trim_of_ends (fun c hc => not_whitespace_of_ordinary (h c (mem_of_mem_head? hc)))
    fun c hc => not_whitespace_of_ordinary (h c (mem_of_mem_getLast? hc))

theorem decode_byte_sequence_encode (bytes : List UInt8) :
    decode_byte_sequence (':' :: (STANDARD.encode bytes ++ [':'])) = some bytes := by
  have htri : trim (':' :: (STANDARD.encode bytes ++ [':'])) =
      ':' :: (STANDARD.encode bytes ++ [':']) := by
    refine trim_ordinary fun c hc => ?_
    simp only [mem_cons, mem_append, not_mem_nil, or_false] at hc
    rcases hc with rfl | hc | rfl
    · decide
    · exact ordinary_encode hc
    · decide
  have hfro : strip_prefix_of (':' :: (STANDARD.encode bytes ++ [':'])) [':']
      = some (STANDARD.encode bytes ++ [':']) := strip_prefix_eq_some.mpr rfl
  have hbac : strip_prefix_of (STANDARD.encode bytes ++ [':']).reverse [':']
      = some (STANDARD.encode bytes).reverse := by
    rw [strip_prefix_eq_some, reverse_append]
    rfl
  simp only [decode_byte_sequence, htri, hfro, hbac, Option.bind_eq_bind, Option.bind_some,
    Option.map_some, reverse_reverse, STANDARD.decode_encode]

/-- **A digest header of one body passes for another only if their hashes are equal**,
whatever blanks stand around it. -/
theorem verify_digest_of_trim {crypto : Crypto} {header : Text} {signed body : List UInt8}
    (h : trim header = content_digest crypto signed) :
    verify_digest crypto header body
      = if crypto.sha256 body = crypto.sha256 signed then .ok () else .error .DigestMismatch := by
  have hcom : ',' ∉ header := by
    obtain ⟨before, after, heq, hbef, haft⟩ := trim_spec header
    rw [heq, h]
    simp only [mem_append, not_or]
    refine ⟨⟨fun hc => absurd (hbef _ hc) (by decide), fun hc => ?_⟩,
      fun hc => absurd (haft _ hc) (by decide)⟩
    exact absurd (ordinary_content_digest hc) (by decide)
  have hspl : header.splitOn ',' = [header] := by
    have hfre : Free ',' [header] := by
      intro s hs
      rw [mem_singleton] at hs
      exact hs ▸ hcom
    have hren := splitOn_render hfre (cons_ne_nil _ _)
    rwa [render_cons, render_nil, append_nil, tail_cons] at hren
  have hnam : '=' ∉ SHA_256 := by decide
  have hval : trim (':' :: (STANDARD.encode (crypto.sha256 signed) ++ [':']))
      = ':' :: (STANDARD.encode (crypto.sha256 signed) ++ [':']) := by
    refine trim_ordinary fun c hc => @ordinary_content_digest crypto signed c ?_
    exact mem_append_right _ (mem_cons_of_mem _ hc)
  have htri : ¬ trim SHA_256 ≠ SHA_256 := by decide
  have hmem : digest_member (crypto.sha256 body) false header
      = if crypto.sha256 body = crypto.sha256 signed then .ok true else .error .DigestMismatch := by
    unfold digest_member
    rw [h, content_digest, split_once_append _ hnam]
    simp only [hval, decode_byte_sequence_encode]
    rw [if_neg htri]
  rw [verify_digest, hspl, foldlM_cons, hmem]
  split_ifs
  · rfl
  · rfl

theorem signature_base_inj {digest target' digest' params' : Text} (ht : '\n' ∉ target)
    (ht' : '\n' ∉ target') (hd : '\n' ∉ digest) (hd' : '\n' ∉ digest')
    (h : signature_base target digest params = signature_base target' digest' params') :
    target = target' ∧ digest = digest' ∧ params = params' := by
  have hlin : ∀ {name value : Text}, '\n' ∉ name → '\n' ∉ value → '\n' ∉ name ++ value :=
    fun hnam hval hmem => (mem_append.mp hmem).elim hnam hval
  have hfir : '\n' ∉ TARGET_LINE := by decide
  have hsec : '\n' ∉ DIGEST_LINE := by decide
  -- The text is cut at its first line feed, and what is left of it at the next one.
  have hcut := congrArg (split_once '\n') h
  unfold signature_base at hcut
  rw [split_once_append _ (hlin hfir ht), split_once_append _ (hlin hfir ht'),
    Option.some.injEq, Prod.mk.injEq] at hcut
  obtain ⟨htar, hres⟩ := hcut
  have hcut := congrArg (split_once '\n') hres
  rw [split_once_append _ (hlin hsec hd), split_once_append _ (hlin hsec hd'),
    Option.some.injEq, Prod.mk.injEq] at hcut
  exact ⟨append_cancel_left htar, append_cancel_left hcut.1,
    append_cancel_left hcut.2⟩

/-! ## What acceptance says of the parameters -/

/-- The value of a parameter called `created`. -/
def created_text (parameter : Text) : Option Text :=
  (split_once '=' (trim parameter)).bind fun (name, value) =>
    if trim name = "created".toList then some (trim value) else none

def created_parameter (params : Text) : Option ℕ :=
  (strip_prefix_of params COVERED_COMPONENTS).bind fun rest =>
    ((rest.splitOn ';').filterMap created_text).getLast?.bind parse_u64

theorem Parameters.created_next {next : Parameters} {parameter : Text}
    (h : self.next parameter = .ok next) :
    next.created = (created_text parameter).elim self.created parse_u64 := by
  unfold Parameters.next at h
  unfold created_text
  split_ifs at h with hemp
  · obtain rfl := Except.ok.inj h
    rw [isEmpty_iff.mp hemp]
    rfl
  · split at h
    · simp at h
    · rename_i name value hspl
      rw [hspl, Option.bind_some]
      show next.created = (if trim name = "created".toList then some (trim value) else none).elim
        self.created parse_u64
      by_cases hcre : trim name = "created".toList
      · rw [if_pos hcre] at h ⊢
        split at h
        · simp at h
        · rename_i hpar
          obtain rfl := Except.ok.inj h
          rw [Option.elim_some, hpar]
      · rw [if_neg hcre] at h ⊢
        -- No other parameter touches `created`.
        split_ifs at h
        · split at h
          · simp at h
          · obtain rfl := Except.ok.inj h
            rfl
        all_goals
          obtain rfl := Except.ok.inj h
          rfl

theorem Parameters.created_foldlM {parameters : List Text} {final : Parameters}
    (h : parameters.foldlM Parameters.next self = .ok final) :
    final.created = ((parameters.filterMap created_text).getLast?).elim self.created parse_u64 := by
  induction parameters generalizing self with
  | nil =>
    obtain rfl := Except.ok.inj h
    rfl
  | cons parameter parameters ih =>
    rw [foldlM_cons] at h
    obtain ⟨next, hnex, hres⟩ := bind_eq_ok.mp h
    rw [ih hres, Parameters.created_next hnex]
    cases hval : created_text parameter with
    | none => rw [filterMap_cons_none hval, Option.elim_none]
    | some value =>
      rw [filterMap_cons_some hval, getLast?_cons, Option.elim_some, Option.elim_some]
      cases (parameters.filterMap created_text).getLast? with
      | none => rfl
      | some last => rfl

/-- At most ten seconds old and two ahead, in whole seconds. -/
def InWindow (now : SystemTime) (created : ℕ) : Prop :=
  now.secs - NOT_OLDER_THAN ≤ created ∧ (created : ℤ) ≤ now.secs + NOT_NEWER_THAN

theorem validate_params_created (h : validate_params params now = .ok ()) :
    ∃ created, created_parameter params = some created ∧ InWindow now created := by
  unfold validate_params at h
  obtain ⟨rest, hres, h⟩ := bind_eq_ok.mp h
  obtain ⟨parameters, hfol, h⟩ := bind_eq_ok.mp h
  obtain ⟨_, _, h⟩ := bind_eq_ok.mp h
  obtain ⟨created, hcre, h⟩ := bind_eq_ok.mp h
  obtain ⟨now_secs, hnow, h⟩ := bind_eq_ok.mp h
  obtain ⟨_, hwin, _⟩ := bind_eq_ok.mp h
  rw [ok_or_eq_ok] at hres hcre hnow
  refine ⟨created, ?_, ?_⟩
  · have hlas := Parameters.created_foldlM hfol
    rw [hcre] at hlas
    rw [created_parameter, hres, Option.bind_some]
    cases hval : ((rest.splitOn ';').filterMap created_text).getLast? with
    | none => exact absurd (hval ▸ hlas) (by simp)
    | some value => exact (hval ▸ hlas).symm
  · rw [ensure_eq_ok, saturating_add] at hwin
    unfold SystemTime.as_secs at hnow
    split_ifs at hnow
    have hsec := Option.some.inj hnow
    have hran := now.range
    unfold InWindow
    unfold NOT_OLDER_THAN NOT_NEWER_THAN at *
    omega

def received_params (headers : HeaderMap) : Except SignatureError Text := do
  let input ← single_header headers "signature-input".toList
  dictionary_entry input SIGNATURE_LABEL

theorem line_feed_not_mem (h : single_header headers name = .ok value) : '\n' ∉ value := by
  unfold single_header at h
  split at h
  · simp at h
  · rw [ok_or_eq_ok, to_str] at h
    split_ifs at h with hvis
    obtain rfl := Option.some.inj h
    intro hmem
    exact absurd (all_eq_true.mp hvis _ hmem) (by decide)
  · simp at h

/-- **What acceptance says**: the parameters are fresh, the digest header passes for the
body, and the key accepts the text rebuilt from the request. -/
theorem verify_eq_ok (h : verify crypto target headers body now = .ok ()) :
    ∃ params digest signature, received_params headers = .ok params ∧
      validate_params params now = .ok () ∧ '\n' ∉ digest ∧ verify_digest crypto digest body = .ok () ∧
      crypto.verify_strict (as_bytes (signature_base target (trim digest) params)) signature
        = true := by
  unfold verify at h
  obtain ⟨input, hinp, h⟩ := bind_eq_ok.mp h
  obtain ⟨_, _, h⟩ := bind_eq_ok.mp h
  obtain ⟨params, hpar, h⟩ := bind_eq_ok.mp h
  obtain ⟨_, hval, h⟩ := bind_eq_ok.mp h
  obtain ⟨digest, hdig, h⟩ := bind_eq_ok.mp h
  obtain ⟨_, hbod, h⟩ := bind_eq_ok.mp h
  obtain ⟨_, _, h⟩ := bind_eq_ok.mp h
  obtain ⟨bytes, _, h⟩ := bind_eq_ok.mp h
  obtain ⟨_, _, h⟩ := bind_eq_ok.mp h
  exact ⟨params, digest, bytes, bind_eq_ok.mpr ⟨input, hinp, hpar⟩, hval,
    line_feed_not_mem (mapError_eq_ok.mp hdig), hbod, ensure_eq_ok.mp h⟩

/-- What one request of the CI server signs: the target, the body by its digest, and the
parameters. -/
structure Honest where
  target : Text
  body : List UInt8
  params : Text

def Honest.base (self : Honest) (crypto : Crypto) : Text :=
  signature_base self.target (content_digest crypto self.body) self.params

theorem accepted_is_honest {hone : Set Honest}
    (hsig : ∀ message signature, crypto.verify_strict message signature = true →
      ∃ q ∈ hone, message = as_bytes (q.base crypto))
    (hhas : ∀ q ∈ hone, ∀ body, crypto.sha256 body = crypto.sha256 q.body → body = q.body)
    (hlin : ∀ q ∈ hone, '\n' ∉ q.target) (htar : '\n' ∉ target)
    (h : verify crypto target headers body now = .ok ()) :
    ∃ q ∈ hone, q.target = target ∧ q.body = body ∧ received_params headers = .ok q.params ∧
      ∃ created, created_parameter q.params = some created ∧ InWindow now created := by
  obtain ⟨params, digest, signature, hpar, hval, hdig, hbod, hacc⟩ := verify_eq_ok h
  obtain ⟨q, hq, hmes⟩ := hsig _ _ hacc
  have hdig' : '\n' ∉ content_digest crypto q.body :=
    fun hmem => absurd (ordinary_content_digest hmem) (by decide)
  obtain ⟨rfl, htri, rfl⟩ := signature_base_inj htar (hlin q hq)
    (fun hmem => hdig (mem_of_mem_trim hmem)) hdig' (as_bytes_injective hmes)
  -- The digest header is the honest body's, so it passes for no other body.
  rw [verify_digest_of_trim htri] at hbod
  split_ifs at hbod with hsam
  exact ⟨q, hq, rfl, (hhas q hq body hsam).symm, hpar, validate_params_created hval⟩

/-! ## Dictionaries with one member -/

def Members.behind (u : Text) (self : Members) : Members :=
  { self with current := u ++ self.current }

theorem Members.next_behind {self : Members} (hc : c ≠ ',') :
    (self.behind u).next c = (self.next c).map (Members.behind u) := by
  have hcom : ∀ p : Prop, ¬ (c = ',' ∧ p) := fun p h => hc h.1
  simp only [Members.next, Members.behind, append_assoc, if_neg (hcom _)]
  split_ifs
  all_goals rfl

theorem Members.foldlM_behind (ht : ',' ∉ t) (self : Members) :
    t.foldlM Members.next (self.behind u) = (t.foldlM Members.next self).map (Members.behind u) := by
  induction t generalizing self with
  | nil => rfl
  | cons c t ih =>
    rw [mem_cons, not_or] at ht
    rw [foldlM_cons, foldlM_cons, Members.next_behind (Ne.symm ht.1)]
    cases self.next c with
    | error e => rfl
    | ok next => exact ih ht.2 next

def Closed (t : Text) : Prop :=
  ',' ∉ t ∧ t.foldlM Members.next ⟨[], [], false, 0⟩ = .ok ⟨[], t, false, 0⟩

instance (t : Text) : Decidable (Closed t) := inferInstanceAs (Decidable (_ ∧ _))

theorem Closed.append (ht : Closed t) (hu : Closed u) : Closed (t ++ u) := by
  refine ⟨fun hmem => (mem_append.mp hmem).elim ht.1 hu.1, ?_⟩
  have hbeh := Members.foldlM_behind (u := t) hu.1 ⟨[], [], false, 0⟩
  simp only [Members.behind, append_nil, hu.2, Except.map] at hbeh
  rw [foldlM_append, ht.2]
  exact hbeh

theorem closed_char (h : ordinary c = true) : Closed [c] := by
  have hne : ∀ d : Char, ordinary d = false → c ≠ d := by
    rintro d hd rfl
    exact absurd (h.symm.trans hd) (by decide)
  refine ⟨fun hmem => hne ',' (by decide) (mem_singleton.mp hmem).symm, ?_⟩
  show Members.next _ c >>= pure = _
  rw [Members.next, if_neg (hne _ (by decide)), if_neg fun hc => hne _ (by decide) hc.1,
    if_neg fun hc => hne _ (by decide) hc.1, if_neg fun hc => hne _ (by decide) hc.1]
  rfl

theorem closed_ordinary (h : ∀ c ∈ t, ordinary c = true) : Closed t := by
  induction t with
  | nil => exact ⟨not_mem_nil, rfl⟩
  | cons c t ih =>
    exact (closed_char (h c mem_cons_self)).append (ih fun d hd => h d (mem_cons_of_mem c hd))

def one_member (value : Text) : Text := SIGNATURE_LABEL ++ '=' :: value

theorem dictionary_entry_one (hclo : Closed value) (hne : value ≠ [])
    (htrim : trim value = value) (hlas : ∀ c ∈ value.getLast?, is_whitespace c = false) :
    dictionary_entry (one_member value) SIGNATURE_LABEL = .ok value := by
  have hlab : Closed (SIGNATURE_LABEL ++ ['=']) := by decide +kernel
  have hsca := (hlab.append hclo).2
  rw [append_assoc, singleton_append] at hsca
  have htri : trim (one_member value) = one_member value := by
    refine trim_of_ends ?_ fun c hc => hlas c ?_
    · intro c hc
      obtain rfl : 'w' = c := Option.some.inj hc
      decide
    · rwa [one_member, getLast?_append_of_ne_nil _ (cons_ne_nil _ _),
        getLast?_cons_of_ne_nil hne] at hc
  have hfre : '=' ∉ SIGNATURE_LABEL := by decide
  have hnam : trim SIGNATURE_LABEL = SIGNATURE_LABEL := by decide
  unfold dictionary_entry
  refine bind_eq_ok.mpr ⟨_, hsca, ?_⟩
  refine bind_eq_ok.mpr ⟨(), ensure_eq_ok.mpr ⟨rfl, rfl⟩, ?_⟩
  refine bind_eq_ok.mpr ⟨(), ensure_eq_ok.mpr rfl, ?_⟩
  refine bind_eq_ok.mpr ⟨(SIGNATURE_LABEL, value), ok_or_eq_ok.mpr ?_, ?_⟩
  · show split_once '=' (trim (one_member value)) = _
    rw [htri, one_member, split_once_append _ hfre]
  · refine bind_eq_ok.mpr ⟨(), ensure_eq_ok.mpr hnam, ?_⟩
    exact congrArg Except.ok htrim

/-! ## The profile of the CI server -/

def CREATED : Text := "created".toList
def ALG_FIELD : Text := "alg=\"ed25519\"".toList

def created_field (created : ℕ) : Text := CREATED ++ '=' :: Nat.toDigits 10 created

/-- The two covered components, then `created` and `alg` in either order. -/
def InProfile (params : Text) (created : ℕ) : Prop :=
  ∃ fields : List Text, fields.Perm [created_field created, ALG_FIELD] ∧
    params = COVERED_COMPONENTS ++ render ';' fields

theorem ordinary_created_field (h : c ∈ created_field created) : ordinary c = true := by
  have hnam : CREATED.all ordinary = true := by decide
  rw [created_field, mem_append, mem_cons] at h
  rcases h with hc | rfl | hc
  · exact all_eq_true.mp hnam c hc
  · decide
  · exact ordinary_digits hc

theorem parse_u64_toDigits (h : n < 2 ^ 64) : parse_u64 (Nat.toDigits 10 n) = some n := by
  have hsig : ∀ digits, Nat.toDigits 10 n ≠ '+' :: digits := by
    intro digits heq
    have hdig : '+'.isDigit = true := isDigit_toDigits (heq ▸ mem_cons_self)
    exact absurd hdig (by decide)
  unfold parse_u64
  split
  · rename_i digits heq
    exact absurd heq (hsig digits)
  · rw [parse_digits_toDigits, Option.filter_some, if_pos (decide_eq_true h)]

theorem next_created (h : created < 2 ^ 64) :
    self.next (created_field created) = .ok { self with created := some created } := by
  have htri : trim (created_field created) = created_field created :=
    trim_ordinary fun c hc => ordinary_created_field hc
  have hemp : ¬ (created_field created).isEmpty = true := by
    rw [List.isEmpty_iff]
    exact List.append_ne_nil_of_right_ne_nil _ (List.cons_ne_nil _ _)
  have hfre : '=' ∉ CREATED := by decide
  have hnam : trim CREATED = "created".toList := by decide
  unfold Parameters.next
  rw [htri, if_neg hemp, created_field, split_once_append _ hfre]
  show (if trim CREATED = "created".toList then _ else _) = _
  rw [if_pos hnam, trim_ordinary fun c hc => ordinary_digits hc, parse_u64_toDigits h]

theorem next_alg (self : Parameters) :
    self.next ALG_FIELD = .ok { self with algorithm := some ED25519 } := by
  have htri : trim ALG_FIELD = ALG_FIELD := by decide
  have hspl : split_once '=' ALG_FIELD = some ("alg".toList, "\"ed25519\"".toList) := by decide
  have hval : trim_matches '"' (trim "\"ed25519\"".toList) = ED25519 := by decide
  unfold Parameters.next
  rw [htri, if_neg (by decide), hspl]
  show (if trim "alg".toList = _ then _ else _) = _
  rw [if_neg (by decide), if_neg (by decide), if_pos (by decide), hval]

theorem foldlM_fields (h : created < 2 ^ 64)
    (hfie : fields.Perm [created_field created, ALG_FIELD]) :
    ([] :: fields).foldlM Parameters.next ⟨none, none, none⟩
      = .ok ⟨some created, some ED25519, none⟩ := by
  have hemp : Parameters.next ⟨none, none, none⟩ [] = .ok ⟨none, none, none⟩ := rfl
  rw [foldlM_cons, hemp]
  show fields.foldlM Parameters.next ⟨none, none, none⟩ = _
  rcases perm_pair.mp hfie with rfl | rfl
  · rw [foldlM_cons, next_created h]
    show Parameters.next _ ALG_FIELD >>= pure = _
    rw [next_alg]
    rfl
  · rw [foldlM_cons, next_alg]
    show Parameters.next _ (created_field created) >>= pure = _
    rw [next_created h]
    rfl

theorem semicolon_free (hfie : fields.Perm [created_field created, ALG_FIELD]) :
    Free ';' ([] :: fields) := by
  have halg : ';' ∉ ALG_FIELD := by decide
  have hdig : ';' ∉ Nat.toDigits 10 created :=
    fun hmem => absurd (isDigit_toDigits hmem) (by decide)
  have hnam : ';' ∉ CREATED := by decide
  intro s hs
  rcases mem_cons.mp hs with rfl | hs
  · exact not_mem_nil
  · rcases mem_pair.mp (hfie.mem_iff.mp hs) with rfl | rfl
    · rw [created_field, mem_append, mem_cons]
      rintro (hmem | hmem | hmem)
      · exact hnam hmem
      · exact absurd hmem (by decide)
      · exact hdig hmem
    · exact halg

theorem validate_params_profile (hpro : InProfile params created) (hepo : 0 ≤ now.secs)
    (hwin : InWindow now created) : validate_params params now = .ok () := by
  obtain ⟨fields, hfie, rfl⟩ := hpro
  have hran := now.range
  unfold InWindow NOT_OLDER_THAN NOT_NEWER_THAN at hwin
  have hsma : created < 2 ^ 64 := by omega
  have hspl : (render ';' fields).splitOn ';' = [] :: fields :=
    splitOn_render (semicolon_free hfie) (cons_ne_nil _ _)
  have hnow : now.as_secs = some now.secs.toNat := if_neg (by omega)
  unfold validate_params
  refine bind_eq_ok.mpr ⟨_, ok_or_eq_ok.mpr (strip_prefix_eq_some.mpr rfl), ?_⟩
  refine bind_eq_ok.mpr ⟨_, (congrArg _ hspl).trans (foldlM_fields hsma hfie), ?_⟩
  refine bind_eq_ok.mpr ⟨(), ensure_eq_ok.mpr rfl, ?_⟩
  refine bind_eq_ok.mpr ⟨created, ok_or_eq_ok.mpr rfl, ?_⟩
  refine bind_eq_ok.mpr ⟨_, ok_or_eq_ok.mpr hnow, ?_⟩
  refine bind_eq_ok.mpr ⟨(), ensure_eq_ok.mpr ?_, ensure_eq_ok.mpr rfl⟩
  rw [saturating_add]
  unfold NOT_OLDER_THAN NOT_NEWER_THAN
  omega

theorem visible_of_ordinary (h : ordinary c = true) : visible c = true := by
  simp only [ordinary, Bool.and_eq_true, decide_eq_true_eq] at h
  have hlow := h.1.1.1.1.1
  have hhig := h.1.1.1.1.2
  simp only [visible, Bool.or_eq_true, Bool.and_eq_true, decide_eq_true_eq]
  exact Or.inl ⟨by omega, by omega⟩

theorem single_header_eq (h : headers.get_all name = [value])
    (hvis : ∀ c ∈ value, visible c = true) : single_header headers name = .ok value := by
  unfold single_header
  rw [h]
  exact ok_or_eq_ok.mpr (if_pos (all_eq_true.mpr hvis))

structure Readable (t : Text) : Prop where
  closed : Closed t
  visible : ∀ c ∈ t, visible c = true
  last : ∀ c ∈ t.getLast?, is_whitespace c = false

theorem readable_ordinary (h : ∀ c ∈ t, ordinary c = true) : Readable t where
  closed := closed_ordinary h
  visible c hc := visible_of_ordinary (h c hc)
  last c hc := not_whitespace_of_ordinary (h c (mem_of_mem_getLast? hc))

theorem Readable.append (ht : Readable t) (hu : Readable u) : Readable (t ++ u) where
  closed := ht.closed.append hu.closed
  visible c hc := (mem_append.mp hc).elim (ht.visible c) (hu.visible c)
  last c hc := by
    rw [getLast?_append] at hc
    cases hlas : u.getLast? with
    | none => exact ht.last c (by rwa [hlas, Option.none_or] at hc)
    | some d => exact hu.last c (by rwa [hlas, Option.some_or, ← hlas] at hc)

theorem readable_profile (h : InProfile params created) : Readable params := by
  obtain ⟨fields, hfie, rfl⟩ := h
  have hcov : Readable COVERED_COMPONENTS := by
    refine ⟨by decide +kernel, fun c hc => ?_, fun c hc => ?_⟩
    · have hall : COVERED_COMPONENTS.all visible = true := by decide
      exact all_eq_true.mp hall c hc
    · obtain rfl : ')' = c := Option.some.inj hc
      decide
  have hsem : Readable [';'] := readable_ordinary (all_eq_true.mp (by decide))
  have halg : Readable ALG_FIELD := by
    refine ⟨by decide +kernel, fun c hc => ?_, fun c hc => ?_⟩
    · have hall : ALG_FIELD.all visible = true := by decide
      exact all_eq_true.mp hall c hc
    · obtain rfl : '"' = c := Option.some.inj hc
      decide
  have hcre : Readable (created_field created) :=
    readable_ordinary fun c hc => ordinary_created_field hc
  have hres : ∀ a b : Text, Readable a → Readable b → Readable (render ';' [a, b]) := by
    intro a b ha hb
    have hbot := (hsem.append ha).append (hsem.append hb)
    rw [append_assoc, singleton_append, singleton_append] at hbot
    rwa [render_cons, render_cons, render_nil, append_nil]
  rcases perm_pair.mp hfie with rfl | rfl
  · exact hcov.append (hres _ _ hcre halg)
  · exact hcov.append (hres _ _ halg hcre)

theorem dictionary_of_header (hread : Readable value) (hne : value ≠ [])
    (hhea : ∀ c ∈ value.head?, is_whitespace c = false)
    (h : headers.get_all name = [one_member value]) :
    single_header headers name = .ok (one_member value) ∧
      dictionary_entry (one_member value) SIGNATURE_LABEL = .ok value := by
  have hlab : Readable (SIGNATURE_LABEL ++ ['=']) := readable_ordinary (all_eq_true.mp (by decide))
  have hmem := hlab.append hread
  rw [append_assoc, singleton_append] at hmem
  exact ⟨single_header_eq h hmem.visible,
    dictionary_entry_one hread.closed hne (trim_of_ends hhea hread.last) hread.last⟩

def byte_sequence (bytes : List UInt8) : Text := ':' :: (STANDARD.encode bytes ++ [':'])

structure Honest.Headers (q : Honest) (crypto : Crypto) (bytes : List UInt8)
    (headers : HeaderMap) : Prop where
  input : headers.get_all "signature-input".toList = [one_member q.params]
  signature : headers.get_all "signature".toList = [one_member (byte_sequence bytes)]
  digest : headers.get_all "content-digest".toList = [content_digest crypto q.body]

theorem honest_is_accepted {q : Honest} (hpro : InProfile q.params created)
    (hhea : q.Headers crypto signature headers) (hlength : signature.length = 64)
    (hsig : crypto.verify_strict (as_bytes (q.base crypto)) signature = true)
    (hepo : 0 ≤ now.secs) (hwin : InWindow now created) :
    verify crypto q.target headers q.body now = .ok () := by
  have hpar : q.params ≠ [] ∧ ∀ c ∈ q.params.head?, is_whitespace c = false := by
    obtain ⟨fields, -, hpar⟩ := hpro
    rw [hpar]
    refine ⟨append_ne_nil_of_left_ne_nil (by decide) _, fun c hc => ?_⟩
    obtain rfl : '(' = c := Option.some.inj hc
    decide
  have hbytes : ∀ c ∈ byte_sequence signature, ordinary c = true := by
    intro c hc
    rw [byte_sequence, mem_cons, mem_append, mem_singleton] at hc
    rcases hc with rfl | hc | rfl
    · decide
    · exact ordinary_encode hc
    · decide
  obtain ⟨hinp, hinp'⟩ :=
    dictionary_of_header (readable_profile hpro) hpar.1 hpar.2 hhea.input
  obtain ⟨hraw, hraw'⟩ := dictionary_of_header (readable_ordinary hbytes) (cons_ne_nil _ _)
    (fun c hc => not_whitespace_of_ordinary (hbytes c (mem_of_mem_head? hc)))
    hhea.signature
  have hdig : single_header headers "content-digest".toList
      = .ok (content_digest crypto q.body) :=
    single_header_eq hhea.digest fun c hc => visible_of_ordinary (ordinary_content_digest hc)
  have htri : trim (content_digest crypto q.body) = content_digest crypto q.body :=
    trim_ordinary fun c hc => ordinary_content_digest hc
  have hbod := @verify_digest_of_trim crypto _ q.body q.body htri
  rw [if_pos rfl] at hbod
  unfold verify
  refine bind_eq_ok.mpr ⟨_, hinp, bind_eq_ok.mpr ⟨_, hraw, bind_eq_ok.mpr ⟨_, hinp', ?_⟩⟩⟩
  refine bind_eq_ok.mpr ⟨(), validate_params_profile hpro hepo hwin, ?_⟩
  refine bind_eq_ok.mpr ⟨_, mapError_eq_ok.mpr hdig, bind_eq_ok.mpr ⟨(), hbod, ?_⟩⟩
  refine bind_eq_ok.mpr ⟨_, hraw', ?_⟩
  refine bind_eq_ok.mpr ⟨signature, ok_or_eq_ok.mpr (decode_byte_sequence_encode signature), ?_⟩
  refine bind_eq_ok.mpr ⟨(), ensure_eq_ok.mpr hlength, ensure_eq_ok.mpr ?_⟩
  rw [htri]
  exact hsig

/-- **The signature binds the request.** -/
theorem signature_binds_request {crypto : Crypto} {signed : Set (List UInt8)}
    {honest : Set Honest}
    (hkey : ∀ message signature, crypto.verify_strict message signature = true → message ∈ signed)
    (hsigned : ∀ message ∈ signed, ∃ q ∈ honest, message = as_bytes (q.base crypto))
    (hhash : ∀ q ∈ honest, ∀ body, crypto.sha256 body = crypto.sha256 q.body → body = q.body)
    (hline : ∀ q ∈ honest, '\n' ∉ q.target) :
    (∀ target headers body now, '\n' ∉ target → verify crypto target headers body now = .ok () →
      ∃ q ∈ honest, q.target = target ∧ q.body = body ∧ received_params headers = .ok q.params ∧
        ∃ created, created_parameter q.params = some created ∧ InWindow now created) ∧
    ∀ q ∈ honest, ∀ created bytes headers now, InProfile q.params created →
      q.Headers crypto bytes headers → bytes.length = 64 →
      crypto.verify_strict (as_bytes (q.base crypto)) bytes = true → 0 ≤ now.secs →
      InWindow now created → verify crypto q.target headers q.body now = .ok () := by
  constructor
  · intro target headers body now htar hver
    refine accepted_is_honest (fun message signature hacc => ?_) hhash hline htar hver
    exact hsigned message (hkey message signature hacc)
  · intro q _ created bytes headers now hpro hhea hlength hsig hepo hwin
    exact honest_is_accepted hpro hhea hlength hsig hepo hwin

/-! ## Two requests

Their key and hash are `ed25519_dalek` for the key of seed `[7; 32]` and `sha2`, at these requests. -/

def sample_request (created : ℕ) : Honest where
  target := "/secrets".toList
  body := [1, 2, 3]
  params := COVERED_COMPONENTS ++ render ';' [created_field created, ALG_FIELD]

def sample_digest : List UInt8 :=
  [3, 144, 88, 198, 242, 192, 203, 73, 44, 83, 59, 10, 77, 20, 239, 119, 204, 15, 120, 171, 204,
   206, 213, 40, 125, 132, 161, 162, 1, 28, 251, 129]

def sample_signature (created : ℕ) : List UInt8 :=
  if created = 0 then
    [206, 6, 87, 134, 148, 27, 187, 59, 172, 79, 129, 144, 29, 188, 175, 172, 161, 223, 67, 214,
     213, 46, 196, 224, 13, 120, 31, 204, 97, 85, 226, 25, 9, 243, 175, 202, 91, 155, 37, 27, 89,
     114, 92, 239, 178, 101, 55, 0, 87, 94, 10, 203, 173, 139, 27, 100, 96, 128, 88, 140, 103, 160,
     241, 15]
  else
    [59, 29, 112, 217, 230, 187, 84, 96, 184, 239, 169, 246, 74, 147, 41, 232, 131, 7, 233, 185,
     131, 70, 149, 154, 64, 165, 127, 52, 88, 149, 163, 109, 126, 29, 73, 82, 63, 42, 105, 46, 162,
     18, 120, 35, 163, 203, 104, 142, 123, 218, 172, 65, 153, 89, 158, 72, 6, 199, 76, 224, 212,
     104, 159, 10]

def sample_sha256 : List UInt8 → List UInt8 := Equiv.swap [1, 2, 3] sample_digest

/-- A key that has signed the requests of seconds 0 and 100. -/
def sample_key : Crypto where
  verify_strict message signature := [0, 100].any fun created =>
    message == as_bytes ((sample_request created).base ⟨fun _ _ => false, sample_sha256⟩) &&
      signature == sample_signature created
  sha256 := sample_sha256

theorem sample_key_accepts {message : List UInt8} :
    sample_key.verify_strict message signature = true ↔ ∃ created ∈ [0, 100],
      message = as_bytes ((sample_request created).base sample_key) ∧
        signature = sample_signature created := by
  simp only [sample_key, any_eq_true, Bool.and_eq_true, beq_iff_eq]
  rfl

def sample_headers (created : ℕ) : HeaderMap :=
  [("signature-input".toList, one_member (sample_request created).params),
    ("signature".toList, one_member (byte_sequence (sample_signature created))),
    ("content-digest".toList, content_digest sample_key [1, 2, 3])]

theorem sample_request_profile (created : ℕ) : InProfile (sample_request created).params created :=
  ⟨_, List.Perm.refl _, rfl⟩

theorem sample_request_headers (created : ℕ) : (sample_request created).Headers sample_key
    (sample_signature created) (sample_headers created) := by
  constructor
  all_goals rfl

/-- At second 105 the verifier accepts the request of second 100, and only its body. -/
theorem sample_request_bound :
    verify sample_key "/secrets".toList (sample_headers 100) [1, 2, 3] ⟨105, 0, by decide⟩ = .ok () ∧
    ∀ body, verify sample_key "/secrets".toList (sample_headers 100) body ⟨105, 0, by decide⟩
      = .ok () → body = [1, 2, 3] := by
  have hhon : ∀ q ∈ sample_request '' {0, 100}, q.body = [1, 2, 3] ∧ '\n' ∉ q.target := by
    rintro q ⟨created, -, rfl⟩
    exact ⟨rfl, (by decide : '\n' ∉ "/secrets".toList)⟩
  have hbin := @signature_binds_request sample_key
    ((fun created => as_bytes ((sample_request created).base sample_key)) '' {0, 100})
    (sample_request '' {0, 100})
    (fun message signature hacc => by
      obtain ⟨created, hcre, rfl, -⟩ := sample_key_accepts.mp hacc
      exact ⟨created, by simpa using hcre, rfl⟩)
    (by
      rintro message ⟨created, hcre, rfl⟩
      exact ⟨_, ⟨created, hcre, rfl⟩, rfl⟩)
    (fun q hq body hbod => (Equiv.swap [1, 2, 3] sample_digest).injective hbod)
    (fun q hq => (hhon q hq).2)
  refine ⟨?_, fun body hver => ?_⟩
  · exact hbin.2 _ ⟨100, by simp, rfl⟩ 100 (sample_signature 100) (sample_headers 100) _
      (sample_request_profile 100) (sample_request_headers 100) rfl
      (sample_key_accepts.mpr ⟨100, by simp, rfl, rfl⟩) (by decide) (by unfold InWindow; decide)
  · obtain ⟨q, hq, -, hbod, -⟩ := hbin.1 _ _ _ _ (by decide) hver
    exact hbod.symm.trans (hhon q hq).1

/-- **Before the epoch nothing is accepted**: an honest request of second 0 is refused one
second earlier, though second 0 is in the window there. -/
theorem refused_before_epoch :
    InProfile (sample_request 0).params 0 ∧
      (sample_request 0).Headers sample_key (sample_signature 0) (sample_headers 0) ∧
      sample_key.verify_strict (as_bytes ((sample_request 0).base sample_key))
        (sample_signature 0) = true ∧
      InWindow ⟨-1, 0, by decide⟩ 0 ∧
      verify sample_key (sample_request 0).target (sample_headers 0) (sample_request 0).body
        ⟨-1, 0, by decide⟩ = .error .CreatedOutOfRange :=
  ⟨sample_request_profile 0, sample_request_headers 0,
    sample_key_accepts.mpr ⟨0, by simp, rfl, rfl⟩, by unfold InWindow; decide, by decide +kernel⟩

end SovereignConfig.Broker
