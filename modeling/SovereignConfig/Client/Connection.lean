/-
`sovereign-config-core/src/connection.rs`: the connection URL. The parser accepts only what
serializing gives back. Of the `url` crate, only that a host has no `/` and no `#` is assumed.
-/
import SovereignConfig.Confinement
import SovereignConfig.Lib.Base64
import SovereignConfig.Lib.Checks
import SovereignConfig.Lib.FormUrlencoded

namespace SovereignConfig.Connection

open Lib Text List Base64 ConfigPath

/-! ## URLs -/

/-- The host of a URL, which holds none of the characters that end one. -/
structure Host where
  text : Text
  undelimited : ∀ c ∈ text, c ≠ '/' ∧ c ≠ '#'

structure Url where
  scheme : Text
  username : Text
  password : Option Text
  host : Option Host
  port : Option ℕ
  path : Text
  query : Option Text
  fragment : Option Text
  as_str : Text

/-- `Url::parse`, whether a host is the text of a loopback address, and how `form_urlencoded` reads
bytes that are not UTF-8. -/
structure UrlCrate where
  parse : Text → Option Url
  is_loopback : Text → Bool
  lossy : List UInt8 → Text

def HTTPS : Text := "https".toList
def HTTP : Text := "http".toList

def Url.authority (host : Host) (port : Option ℕ) : Text :=
  host.text ++ port.elim [] fun port => ':' :: format_int port

/-- `url.origin().ascii_serialization()`, asked only of `https` and `http` URLs. -/
def Url.origin (self : Url) : Text :=
  match self.host with
  | some host =>
    if self.scheme = HTTPS ∨ self.scheme = HTTP then
      self.scheme ++ ':' :: '/' :: '/' :: Url.authority host self.port
    else "null".toList
  | none => "null".toList

inductive ConnectionUrlError where
  | mk
deriving DecidableEq

variable (env : UrlCrate)

def valid_secure_origin (url : Url) : Bool :=
  match url.host with
  | none => false
  | some host => url.scheme == HTTPS || (url.scheme == HTTP && env.is_loopback host.text)

def validate_endpoint (url : Url) : Except ConnectionUrlError Unit :=
  ensure (valid_secure_origin env url = true ∧ url.username = [] ∧ url.password = none ∧
    url.query = none) .mk

/-! ## The text -/

def FORMAT_VERSION : Text := ['1']
def VERSION_KEY : Text := ['v']
def ISSUER_KEY : Text := "issuer".toList
def CLIENT_ID_KEY : Text := "client_id".toList
def CLIENT_SECRET_KEY : Text := "client_secret".toList

def REDACTED : Text := ['*']
def REDACTED_PAIR : Text := "&client_secret=*".toList

def serialize (endpoint : Text) (root : ConfigPath) (issuer client_id : Text)
    (client_secret : Option Text) : Text :=
  let redacted := decide (client_secret = some REDACTED)
  let shown := client_secret.filter fun _ => !redacted
  let fragment := FormUrlencoded.serialize
    ([(VERSION_KEY, FORMAT_VERSION), (ISSUER_KEY, issuer), (CLIENT_ID_KEY, client_id)] ++
      shown.toList.map fun client_secret => (CLIENT_SECRET_KEY, client_secret))
  endpoint ++ root.fold ++ '#' :: fragment ++ if redacted then REDACTED_PAIR else []

/-! ## Parsing -/

structure Fields where
  version : Option Text
  issuer : Option Text
  client_id : Option Text
  client_secret : Option Text

def Fields.set (self : Fields) (pair : Text × Text) : Except ConnectionUrlError Fields :=
  if pair.1 = VERSION_KEY then
    (ensure (self.version = none) .mk).map fun _ => { self with version := some pair.2 }
  else if pair.1 = ISSUER_KEY then
    (ensure (self.issuer = none) .mk).map fun _ => { self with issuer := some pair.2 }
  else if pair.1 = CLIENT_ID_KEY then
    (ensure (self.client_id = none) .mk).map fun _ => { self with client_id := some pair.2 }
  else if pair.1 = CLIENT_SECRET_KEY then
    (ensure (self.client_secret = none) .mk).map fun _ => { self with client_secret := some pair.2 }
  else .error .mk

def parse_root (path : Text) : Except ConnectionUrlError ConfigPath :=
  (ConfigPath.parse path).mapError fun _ => .mk

def canonical_issuer (value : Text) : Except ConnectionUrlError Text := do
  let issuer ← ok_or (env.parse value) .mk
  ensure (valid_secure_origin env issuer = true ∧ issuer.username = [] ∧ issuer.password = none ∧
    issuer.query = none ∧ issuer.fragment = none ∧ issuer.path.getLast? = some '/') .mk
  ensure (issuer.as_str = value) .mk
  return issuer.as_str

def client_id_ok (client_id : Text) : Bool :=
  !client_id.isEmpty &&
    client_id.all fun c => c.isAlphanum || c == '-' || c == '.' || c == '_' || c == '~'

def is_ascii_control (b : UInt8) : Bool := decide (b.toNat < 32) || b.toNat == 127

def parse_client_authentication (value : Text) : Except ConnectionUrlError Text := do
  ensure (value ≠ [] ∧ '=' ∉ value) .mk
  let decoded ← ok_or (URL_SAFE_NO_PAD.decode value) .mk
  ensure (URL_SAFE_NO_PAD.encode decoded = value) .mk
  let decoded_text ← ok_or (from_utf8 decoded) .mk
  let (username, password) ← ok_or (split_once ':' decoded_text) .mk
  ensure (username ≠ [] ∧ password ≠ [] ∧ decoded.any is_ascii_control = false) .mk
  return STANDARD.encode decoded

structure ConnectionUrl where
  canonical : Text
  endpoint : Text
  root : ConfigPath
  issuer : Text
  client_id : Text
  client_authentication : Option Text
deriving DecidableEq

/-- `Option::map(parse_client_authentication).transpose()`. -/
def authentication : Option Text → Except ConnectionUrlError (Option Text)
  | none => .ok none
  | some client_secret => (parse_client_authentication client_secret).map some

def ConnectionUrl.parse (value : Text) : Except ConnectionUrlError ConnectionUrl := do
  let url ← ok_or (env.parse value) .mk
  validate_endpoint env url
  let root ← parse_root url.path
  let fragment ← ok_or url.fragment .mk
  let fields ← (FormUrlencoded.parse env.lossy fragment).foldlM Fields.set ⟨none, none, none, none⟩
  ensure (fields.version = some FORMAT_VERSION) .mk
  let issuer ← ok_or fields.issuer .mk
  let issuer ← canonical_issuer env issuer
  let client_id ← ok_or fields.client_id .mk
  ensure (client_id_ok client_id = true) .mk
  let client_authentication ← authentication fields.client_secret
  let endpoint := url.origin
  let canonical := serialize endpoint root issuer client_id fields.client_secret
  ensure (canonical = value) .mk
  return ⟨canonical, endpoint, root, issuer, client_id, client_authentication⟩

def ConnectionUrl.managed (public_origin : Text) (root : ConfigPath)
    (issuer client_id username app_password : Text) : Except ConnectionUrlError ConnectionUrl := do
  let origin ← ok_or (env.parse public_origin) .mk
  ensure (origin.path = root_text ∧ origin.fragment = none) .mk
  validate_endpoint env origin
  let endpoint := origin.origin
  ensure (endpoint = public_origin.rdropWhile (· == '/')) .mk
  ensure (':' ∉ username) .mk
  let credential := username ++ ':' :: app_password
  let client_secret := URL_SAFE_NO_PAD.encode (as_bytes credential)
  ConnectionUrl.parse env (serialize endpoint root issuer client_id (some client_secret))

def ConnectionUrl.redacted (self : ConnectionUrl) : Text :=
  serialize self.endpoint self.root self.issuer self.client_id
    (self.client_authentication.map fun _ => REDACTED)

/-! ## Serializing is injective -/

def pairs (issuer client_id : Text) (client_secret : Option Text) : List (Text × Text) :=
  [(VERSION_KEY, FORMAT_VERSION), (ISSUER_KEY, issuer), (CLIENT_ID_KEY, client_id)] ++
    client_secret.toList.map fun client_secret => (CLIENT_SECRET_KEY, client_secret)

theorem encode_redacted : '&' :: (FormUrlencoded.encode CLIENT_SECRET_KEY ++
    '=' :: FormUrlencoded.encode REDACTED) = REDACTED_PAIR := by
  decide +kernel

theorem serialize_eq (endpoint : Text) (root : ConfigPath) (issuer client_id : Text)
    (client_secret : Option Text) : serialize endpoint root issuer client_id client_secret =
      endpoint ++ root.fold ++ '#' :: FormUrlencoded.serialize (pairs issuer client_id client_secret)
    := by
  unfold serialize
  by_cases hred : client_secret = some REDACTED
  · subst hred
    simp only [decide_true, Bool.not_true, Option.filter_some, Bool.false_eq_true, if_false,
      Option.toList_none, map_nil, append_nil, if_true, pairs, Option.toList_some,
      map_cons]
    rw [← encode_redacted]
    simp [FormUrlencoded.serialize, intercalate]
  · cases client_secret with
    | none => simp [pairs]
    | some secret => simp [hred, pairs, Option.filter]

/-- An origin: a scheme, `://`, and what ends at the next slash. -/
def Origin (endpoint : Text) : Prop :=
  ∃ scheme authority, (scheme = HTTPS ∨ scheme = HTTP) ∧
    endpoint = scheme ++ ':' :: '/' :: '/' :: authority ∧ ∀ c ∈ authority, c ≠ '/' ∧ c ≠ '#'

theorem origin_of_valid {url : Url} (h : validate_endpoint env url = .ok ()) :
    Origin url.origin := by
  have hval := (ensure_eq_ok.mp h).1
  unfold valid_secure_origin at hval
  cases hhos : url.host with
  | none => simp [hhos] at hval
  | some host =>
    simp only [hhos, Bool.or_eq_true, Bool.and_eq_true, beq_iff_eq] at hval
    have hsch : url.scheme = HTTPS ∨ url.scheme = HTTP := hval.imp id And.left
    refine ⟨url.scheme, Url.authority host url.port, hsch, ?_, ?_⟩
    · simp only [Url.origin, hhos, if_pos hsch]
    · intro c hc
      rcases mem_append.mp hc with hc | hc
      · exact host.undelimited c hc
      · cases hpor : url.port with
        | none => simp [hpor] at hc
        | some port =>
          rw [hpor, Option.elim_some, mem_cons] at hc
          rcases hc with rfl | hc
          · decide
          · rcases mem_format_int hc with rfl | hdig
            · decide
            · exact ⟨fun h => absurd hdig (by rw [h]; decide),
                fun h => absurd hdig (by rw [h]; decide)⟩

theorem schemes_plain : (HTTPS.all fun c => c != ':' && c != '#') = true ∧
    (HTTP.all fun c => c != ':' && c != '#') = true := by
  decide

theorem scheme_plain {scheme : Text} (h : scheme = HTTPS ∨ scheme = HTTP) :
    ':' ∉ scheme ∧ '#' ∉ scheme := by
  have hall : (scheme.all fun c => c != ':' && c != '#') = true := by
    rcases h with rfl | rfl
    · exact schemes_plain.1
    · exact schemes_plain.2
  simp only [all_eq_true, Bool.and_eq_true, bne_iff_ne] at hall
  exact ⟨fun hc => (hall _ hc).1 rfl, fun hc => (hall _ hc).2 rfl⟩

variable {endpoint endpoint' client_id client_id' issuer issuer' value app_password : Text}
  {public_origin username : Text} {secret secret' : Option Text} {root : ConfigPath} {u u' : ConnectionUrl}

theorem Origin.no_fragment (h : Origin endpoint) : '#' ∉ endpoint := by
  obtain ⟨scheme, authority, hsch, rfl, haut⟩ := h
  simp only [mem_append, mem_cons, not_or]
  exact ⟨(scheme_plain hsch).2, by decide, by decide, by decide,
    fun hc => (haut _ hc).2 rfl⟩

theorem Origin.unique {path path' : Text} (h : Origin endpoint) (h' : Origin endpoint')
    (heq : endpoint ++ '/' :: path = endpoint' ++ '/' :: path') :
    endpoint = endpoint' ∧ path = path' := by
  obtain ⟨scheme, authority, hsch, rfl, haut⟩ := h
  obtain ⟨scheme', authority', hsch', rfl, haut'⟩ := h'
  simp only [append_assoc, cons_append] at heq
  obtain ⟨rfl, hres⟩ := split_unique (scheme_plain hsch).1 (scheme_plain hsch').1 heq
  obtain ⟨rfl, hpat⟩ := split_unique (fun hc => (haut _ hc).1 rfl)
    (fun hc => (haut' _ hc).1 rfl) (List.cons.inj (List.cons.inj hres).2).2
  exact ⟨rfl, hpat⟩

theorem fold_no_fragment (root : ConfigPath) : '#' ∉ root.fold := by
  intro hmem
  rcases root.fold_chars hmem with hsla | hcha
  · exact absurd hsla (by decide)
  · exact absurd hcha (by decide)

theorem pairs_injective (h : pairs issuer client_id secret = pairs issuer' client_id' secret') :
    issuer = issuer' ∧ client_id = client_id' ∧ secret = secret' := by
  unfold pairs at h
  cases secret <;> cases secret' <;> simp_all

theorem serialize_injective {root' : ConfigPath} (h : Origin endpoint) (h' : Origin endpoint')
    (heq : serialize endpoint root issuer client_id secret =
      serialize endpoint' root' issuer' client_id' secret') :
    endpoint = endpoint' ∧ root.fold = root'.fold ∧ issuer = issuer' ∧ client_id = client_id' ∧
      secret = secret' := by
  have hfre : ∀ {e : Text} (p : ConfigPath), Origin e → '#' ∉ e ++ p.fold := by
    intro e p he hmem
    exact (mem_append.mp hmem).elim he.no_fragment (fold_no_fragment p)
  rw [serialize_eq, serialize_eq] at heq
  obtain ⟨hpat, hfra⟩ := split_unique (hfre root h) (hfre root' h') heq
  obtain ⟨rest, hfol⟩ := root.root_prefix
  obtain ⟨rest', hfol'⟩ := root'.root_prefix
  rw [← hfol, ← hfol'] at hpat ⊢
  obtain ⟨hend, hres⟩ : endpoint = endpoint' ∧ rest = rest' := h.unique h' hpat
  refine ⟨hend, by rw [hres], ?_⟩
  exact pairs_injective (FormUrlencoded.serialize_injective hfra)

/-! ## What the parser accepts -/

theorem authentication_ok {client_secret : Option Text} {auth : Option Text}
    (h : authentication client_secret = .ok auth) :
    ∃ credential : Option (List UInt8), client_secret = credential.map URL_SAFE_NO_PAD.encode ∧
      auth = credential.map STANDARD.encode := by
  cases client_secret with
  | none => exact ⟨none, rfl, (Except.ok.inj h).symm⟩
  | some value =>
    rw [authentication] at h
    cases hval : parse_client_authentication value with
    | error e => simp [hval, Except.map] at h
    | ok basic =>
      obtain rfl : some basic = auth := by simpa [hval, Except.map] using h
      simp only [parse_client_authentication, bind_eq_ok, ensure_eq_ok, ok_or_eq_ok,
        pure, Except.pure, Except.ok.injEq] at hval
      obtain ⟨-, -, decoded, -, -, henc, -, -, -, -, -, -, rfl⟩ := hval
      exact ⟨some decoded, by rw [Option.map_some, henc], rfl⟩

theorem authentication_redacted : authentication (some REDACTED) = .error .mk := by
  decide +kernel

theorem parse_eq_ok (h : ConnectionUrl.parse env value = .ok u) :
    Origin u.endpoint ∧ u.root.fold = u.root.as_str ∧ u.canonical = value ∧
      ∃ client_secret, authentication client_secret = .ok u.client_authentication ∧
        value = serialize u.endpoint u.root u.issuer u.client_id client_secret := by
  simp only [ConnectionUrl.parse, bind_eq_ok, ensure_eq_ok, ok_or_eq_ok, pure, Except.pure,
    Except.ok.injEq] at h
  obtain ⟨url, -, ⟨⟩, hval, root, hroo, -, -, fields, -, -, -, -, -, issuer, -, client_id, -, -, -,
    client_authentication, haut, -, hcan, rfl⟩ := h
  exact ⟨origin_of_valid env hval, parse_fold (mapError_eq_ok.mp hroo), hcan,
    fields.client_secret, haut, hcan.symm⟩

/-- The connection that the command line selects by the URL. -/
def selected (h : ConnectionUrl.parse env value = .ok u) : Cli.Connection where
  root := u.root
  parsed := by
    have hfol := (parse_eq_ok env h).2.1
    have hroo : u.root.folded = u.root := eq_of_path hfol
    rw [← hfol, parse_of_fold, hroo]

theorem selected_confined (h : ConnectionUrl.parse env value = .ok u) {typed : Text}
    {scope : Cli.Scope} {path : ConfigPath} :
    Cli.operation_path (selected env h) typed scope = .ok path ↔
      Cli.parse_typed typed scope = .ok path ∧ AtOrBelow path u.root :=
  Cli.operation_path_eq_ok

theorem parse_canonical (h : ConnectionUrl.parse env value = .ok u) : value = u.canonical ∧
      ∃ credential : Option (List UInt8), u.client_authentication = credential.map STANDARD.encode ∧
        value = serialize u.endpoint u.root u.issuer u.client_id
          (credential.map URL_SAFE_NO_PAD.encode) := by
  obtain ⟨-, -, hcan, client_secret, haut, hval⟩ := parse_eq_ok env h
  obtain ⟨credential, rfl, hcre⟩ := authentication_ok haut
  exact ⟨hcan.symm, credential, hcre, hval⟩

theorem parse_unique {value' : Text} (h : ConnectionUrl.parse env value = .ok u)
    (h' : ConnectionUrl.parse env value' = .ok u') (hend : u.endpoint = u'.endpoint)
    (hroo : u.root = u'.root) (hiss : u.issuer = u'.issuer)
    (hcli : u.client_id = u'.client_id)
    (haut : u.client_authentication = u'.client_authentication) : value = value' := by
  obtain ⟨-, credential, hcre, hval⟩ := parse_canonical env h
  obtain ⟨-, credential', hcre', hval'⟩ := parse_canonical env h'
  have hsam : credential = credential' :=
    Option.map_injective (fun _ _ => STANDARD.encode_injective)
      (hcre.symm.trans (haut.trans hcre'))
  rw [hval, hval', hend, hroo, hiss, hcli, hsam]

theorem managed_eq_ok
    (h : ConnectionUrl.managed env public_origin root issuer client_id username app_password =
      .ok u) : ':' ∉ username ∧ ConnectionUrl.parse env u.canonical = .ok u ∧
      Origin (public_origin.rdropWhile (· == '/')) ∧
      u.canonical = serialize (public_origin.rdropWhile (· == '/')) root issuer client_id
        (some (URL_SAFE_NO_PAD.encode (as_bytes (username ++ ':' :: app_password)))) := by
  simp only [ConnectionUrl.managed, bind_eq_ok, ensure_eq_ok, ok_or_eq_ok] at h
  obtain ⟨origin, -, -, -, ⟨⟩, hval, -, hend, -, huse, hpar⟩ := h
  have hori := origin_of_valid env hval
  rw [hend] at hori hpar
  have hcan := (parse_canonical env hpar).1
  rw [hcan] at hpar
  exact ⟨huse, hpar, hori, hcan.symm⟩

theorem credential_injective {username' app_password' : Text} (h : ':' ∉ username)
    (h' : ':' ∉ username')
    (heq : URL_SAFE_NO_PAD.encode (as_bytes (username ++ ':' :: app_password)) =
      URL_SAFE_NO_PAD.encode (as_bytes (username' ++ ':' :: app_password'))) :
    username = username' ∧ app_password = app_password' := by
  exact split_unique h h' (as_bytes_injective (URL_SAFE_NO_PAD.encode_injective heq))

theorem managed_parts
    (h : ConnectionUrl.managed env public_origin root issuer client_id username app_password =
      .ok u) : u.endpoint = public_origin.rdropWhile (· == '/') ∧ u.root = root.folded ∧
      u.issuer = issuer ∧ u.client_id = client_id ∧ u.client_authentication =
        some (STANDARD.encode (as_bytes (username ++ ':' :: app_password))) := by
  obtain ⟨-, hpar, hori, hcan⟩ := managed_eq_ok env h
  obtain ⟨hend, hfol, -, client_secret, haut, hval⟩ := parse_eq_ok env hpar
  obtain ⟨hend, hroo, hiss, hcli, hsec⟩ :=
    serialize_injective hend hori (hval.symm.trans hcan)
  obtain ⟨credential, rfl, hcre⟩ := authentication_ok haut
  obtain ⟨bytes, rfl, hbytes⟩ := Option.map_eq_some_iff.mp hsec
  obtain rfl := URL_SAFE_NO_PAD.encode_injective hbytes
  refine ⟨hend, ?_, hiss, hcli, hcre⟩
  have htex : u.root.as_str = root.folded.as_str := hfol.symm.trans hroo
  exact eq_of_path htex

theorem redacted_eq_iff (hori : Origin u'.endpoint) (hend : u.endpoint = u'.endpoint)
    (hroo : u.root = u'.root) (hiss : u.issuer = u'.issuer)
    (hcli : u.client_id = u'.client_id) :
    u.redacted = u'.redacted ↔
      u.client_authentication.isSome = u'.client_authentication.isSome := by
  unfold ConnectionUrl.redacted
  rw [hend, hroo, hiss, hcli]
  constructor
  · intro h
    obtain ⟨-, -, -, -, hsec⟩ := serialize_injective hori hori h
    simpa using congrArg Option.isSome hsec
  · intro h
    cases haut : u.client_authentication <;> cases haut' : u'.client_authentication <;>
      simp_all

theorem redacted_refused {other : ConnectionUrl} (hori : Origin u.endpoint)
    (haut : u.client_authentication.isSome = true) :
    ConnectionUrl.parse env u.redacted ≠ .ok other := by
  intro hpar
  obtain ⟨hoth, -, -, client_secret, hsec, hval⟩ := parse_eq_ok env hpar
  obtain ⟨auth, hsom⟩ := Option.isSome_iff_exists.mp haut
  obtain ⟨-, -, -, -, hmar⟩ := serialize_injective hori hoth hval
  rw [hsom, Option.map_some] at hmar
  rw [← hmar, authentication_redacted] at hsec
  simp at hsec

/-- **The connection URL is a codec.** -/
theorem connection_url_round_trip (env : UrlCrate) :
    (∀ public_origin root issuer client_id username app_password u,
      ConnectionUrl.managed env public_origin root issuer client_id username app_password = .ok u →
        ConnectionUrl.parse env u.canonical = .ok u ∧
        u.endpoint = public_origin.rdropWhile (· == '/') ∧ u.root = root.folded ∧
        u.issuer = issuer ∧ u.client_id = client_id ∧
        u.client_authentication.bind STANDARD.decode =
          some (as_bytes (username ++ ':' :: app_password)) ∧
        split_once ':' (username ++ ':' :: app_password) = some (username, app_password)) ∧
    (∀ public_origin root issuer client_id username app_password u
        public_origin' root' issuer' client_id' username' app_password' u',
      ConnectionUrl.managed env public_origin root issuer client_id username app_password = .ok u →
      ConnectionUrl.managed env public_origin' root' issuer' client_id' username' app_password' =
        .ok u' → u.canonical = u'.canonical →
        public_origin.rdropWhile (· == '/') = public_origin'.rdropWhile (· == '/') ∧
        root.folded = root'.folded ∧ issuer = issuer' ∧ client_id = client_id' ∧
        username = username' ∧ app_password = app_password') ∧
    (∀ value u, ConnectionUrl.parse env value = .ok u →
      value = u.canonical ∧
      (∃ credential : Option (List UInt8),
        u.client_authentication = credential.map STANDARD.encode ∧
        value = serialize u.endpoint u.root u.issuer u.client_id
          (credential.map URL_SAFE_NO_PAD.encode)) ∧
      ∀ value' u', ConnectionUrl.parse env value' = .ok u' → u.endpoint = u'.endpoint →
        u.root = u'.root → u.issuer = u'.issuer → u.client_id = u'.client_id →
        (u.client_authentication = u'.client_authentication → value = value') ∧
        (u.redacted = u'.redacted ↔
          u.client_authentication.isSome = u'.client_authentication.isSome)) ∧
    (∀ value u, ConnectionUrl.parse env value = .ok u → u.client_authentication.isSome = true →
      ∀ other, ConnectionUrl.parse env u.redacted ≠ .ok other) := by
  refine ⟨?_, ?_, ?_, ?_⟩
  · intro public_origin root issuer client_id username app_password u h
    obtain ⟨huse, hpar, -, -⟩ := managed_eq_ok env h
    obtain ⟨hend, hroo, hiss, hcli, haut⟩ := managed_parts env h
    refine ⟨hpar, hend, hroo, hiss, hcli, ?_, split_once_append _ huse⟩
    rw [haut, Option.bind_some, STANDARD.decode_encode]
  · intro public_origin root issuer client_id username app_password u
      public_origin' root' issuer' client_id' username' app_password' u' h h' heq
    obtain ⟨huse, -, hori, hcan⟩ := managed_eq_ok env h
    obtain ⟨huse', -, hori', hcan'⟩ := managed_eq_ok env h'
    obtain ⟨hend, hfol, hiss, hcli, hsec⟩ :=
      serialize_injective hori hori' (hcan.symm.trans (heq.trans hcan'))
    exact ⟨hend, eq_of_path hfol, hiss, hcli,
      credential_injective huse huse' (Option.some.inj hsec)⟩
  · intro value u h
    obtain ⟨hcan, hcre⟩ := parse_canonical env h
    refine ⟨hcan, hcre, fun value' u' h' hend hroo hiss hcli => ?_⟩
    exact ⟨parse_unique env h h' hend hroo hiss hcli,
      redacted_eq_iff (parse_eq_ok env h').1 hend hroo hiss hcli⟩
  · intro value u h haut other
    exact redacted_refused env (parse_eq_ok env h).1 haut

/-- Reads the URLs that are `https://`, a host, a path and perhaps a fragment. -/
def sample_crate : UrlCrate where
  parse value := (strip_prefix_of value "https://".toList).bind fun rest =>
    let host : Host := ⟨rest.takeWhile fun c => c != '/' && c != '#', fun c hc => by
      simpa using mem_takeWhile_imp hc⟩
    let path := (rest.drop host.text.length).takeWhile (· != '#')
    let fragment := (rest.drop (host.text.length + path.length)).tail?
    if path = [] then none
    else some ⟨HTTPS, [], none, some host, none, path, none, fragment, value⟩
  is_loopback _ := false
  lossy _ := []

def sample_root : ConfigPath := ⟨['/', 'R'], Or.inr (by decide)⟩

def sample_url : ConnectionUrl where
  canonical := ("https://a/r#v=1&issuer=https%3A%2F%2Fa%2F&client_id=c" ++
    "&client_secret=dTpw").toList
  endpoint := "https://a".toList
  root := sample_root.folded
  issuer := "https://a/".toList
  client_id := ['c']
  client_authentication := some "dTpw".toList

theorem sample_url_managed : ConnectionUrl.managed sample_crate "https://a/".toList sample_root
    "https://a/".toList ['c'] ['u'] ['p'] = .ok sample_url := by
  decide +kernel

/-- The URL of the user `u` with the password `p` is read back, and refused once redacted. -/
theorem sample_url_read_back :
    ConnectionUrl.parse sample_crate sample_url.canonical = .ok sample_url ∧
    (∀ other, ConnectionUrl.parse sample_crate sample_url.redacted ≠ .ok other) := by
  obtain ⟨hman, -, -, hred⟩ := connection_url_round_trip sample_crate
  have hpar := (hman _ _ _ _ _ _ _ sample_url_managed).1
  exact ⟨hpar, hred _ _ hpar rfl⟩

end SovereignConfig.Connection
