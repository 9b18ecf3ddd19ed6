/-
`handler.rs` and `sovereign/mod.rs` of the broker. The handler asks the reader's thread through a
bounded queue, and the reader runs a whole fetch as one operation of its session.
-/
import SovereignConfig.Broker.Layers
import SovereignConfig.Broker.Signature
import SovereignConfig.Client.Session
import SovereignConfig.Layers.Reader

namespace SovereignConfig.Broker

open Lib Text List
open Layers (LayerReader direct_child_name)

inductive BrokerError where
  | Unauthorized (reason : SignatureError)
  | InvalidBody
  | MissingFields
  | Unavailable
  | AuthUnavailable
  | Overloaded
  | ReaderGone
deriving DecidableEq

def BrokerError.from_client (error : ClientError) : BrokerError :=
  if error.kind = .Unauthenticated then .AuthUnavailable else .Unavailable

/-- `serde_json` on a body: the request in it, and, of any JSON value, whether its `repo` or its
`pipeline` is absent or null. -/
structure Serde where
  request : List UInt8 → Option SecretsRequest
  lacks_field : List UInt8 → Option Bool

def Serde.from_slice (self : Serde) (body : List UInt8) : Except BrokerError SecretsRequest :=
  ok_or (self.request body)
    (if self.lacks_field body = some true then .MissingFields else .InvalidBody)

def ALL_EVENTS : List Text :=
  ["push".toList, "tag".toList, "release".toList, "deployment".toList, "cron".toList,
    "manual".toList]

structure ResponseSecret where
  name : Text
  value : Text
  events : List Text
  images : List Text

def SecretsResponse.build (values : Std.TreeMap Text Text) : List ResponseSecret :=
  (values.toList.map fun value => ⟨value.1, value.2, ALL_EVENTS, []⟩).insertionSort
    fun left right => left.name ≤ right.name

/-! ## The handler -/

inductive TrySend where
  | Sent
  | Full
  | Closed

/-- What a request asks for: a place in the queue, what its fetch asks of the session, and the
reply, which is lost with the reader's thread. -/
inductive Exchange where
  | try_send (layers : List ConfigPath)
  | session (q : Session.Request Layers.Request)
  | reply

abbrev Exchange.Answer : Exchange → Type
  | try_send _ => TrySend
  | session q => Session.Answer Layers.Request.Answer q
  | reply => Bool

abbrev Handling := Call Exchange Exchange.Answer BrokerError

def broker_reader : LayerReader := ⟨.Skip, .Folded⟩

def fetch (layers : List ConfigPath) : Handling (Std.TreeMap Text Text) :=
  .ask (.try_send layers) fun
    | .Full => .fail .Overloaded
    | .Closed => .fail .ReaderGone
    | .Sent => do
      let outcome ← (((Session.call (broker_reader.fetch layers)).embed Exchange.session).attempt :
        Handling (Except ClientError (Std.TreeMap Text Text)))
      .ask .reply fun delivered =>
        if delivered then .lift (outcome.mapError .from_client) else .fail .ReaderGone

structure AppState where
  verifier : Crypto
  serde : Serde
  layers : LayerTemplates

def resolve (state : AppState) (request_target : Text) (headers : HeaderMap) (body : List UInt8)
    (now : SystemTime) : Handling (List ResponseSecret) := do
  .lift ((verify state.verifier request_target headers body now).mapError .Unauthorized)
  let request ← .lift (state.serde.from_slice body)
  let values ← fetch (state.layers.render request)
  return SecretsResponse.build values

/-! ## What a request reads -/

def Reads (layers : List ConfigPath) : Layers.Request → Prop
  | .get_subtree layer _ => layer ∈ layers
  | .reveal_secret path _ => ∃ layer ∈ layers, (direct_child_name layer path).isSome
  | _ => True

/-- The queue is asked for these layers only, and the service for what `Reads` allows. -/
def Confined (layers : List ConfigPath) : Exchange → Prop
  | .try_send asked => asked = layers
  | .session (.rpc _ q) => Reads layers q
  | _ => True

section Reads

open Layers (Reading with_token)

variable {layers : List ConfigPath}

theorem with_token_reads {R : Type} {call : Text → Reading R}
    (h : ∀ token, (call token).Asks (Reads layers)) : (with_token call).Asks (Reads layers) := by
  have htok : Layers.token.Asks (Reads layers) := ⟨trivial, fun _ => trivial⟩
  refine htok.bind fun first => (h first).attempt.bind fun result => ?_
  cases result with
  | ok value => trivial
  | error error =>
    dsimp only
    split_ifs
    · exact ⟨trivial, fun _ => htok.bind h⟩
    · trivial

theorem read_value_reads {reader : LayerReader} {layer : ConfigPath} (hmem : layer ∈ layers)
    (values : List (Text × Text)) (value : Values.SubTreeValue) :
    (reader.read_value layer values value).Asks (Reads layers) := by
  unfold LayerReader.read_value
  cases hchi : direct_child_name layer value.path with
  | none => trivial
  | some name =>
    dsimp only [Option.map_some]
    cases value.value with
    | Plain plain => trivial
    | Secret =>
      have hrev : ∀ token, (Layers.reveal_secret value.path token).Asks (Reads layers) :=
        fun token => ⟨⟨layer, hmem, by rw [hchi]; rfl⟩, fun _ => trivial⟩
      refine (with_token_reads hrev).attempt.bind fun result => ?_
      cases result with
      | ok revealed => trivial
      | error error => dsimp only; split_ifs <;> trivial

theorem fetch_reads (reader : LayerReader) : (reader.fetch layers).Asks (Reads layers) := by
  refine Call.Asks.foldlM_of_mem (fun layer hmem merged => ?_) ∅
  have hsub : ∀ token, (Layers.get_subtree layer token).Asks (Reads layers) :=
    fun token => ⟨hmem, fun _ => trivial⟩
  refine Call.Asks.bind ((with_token_reads hsub).attempt.bind fun result => ?_) fun _ => trivial
  cases result with
  | ok subtree => exact Call.Asks.foldlM (read_value_reads hmem) subtree []
  | error error => dsimp only; split_ifs <;> trivial

theorem fetch_confined (layers : List ConfigPath) : (fetch layers).Asks (Confined layers) := by
  refine ⟨rfl, fun sent => ?_⟩
  cases sent with
  | Full => trivial
  | Closed => trivial
  | Sent =>
    have hses : (Session.call (broker_reader.fetch layers)).Asks
        fun q => Confined layers (.session q) :=
      Session.call_asks (fun _ => fetch_reads broker_reader) fun q hq => by
        cases q with
        | rpc _ _ => exact nomatch hq
        | _ => trivial
    refine hses.embed.attempt.bind fun outcome => ⟨trivial, fun delivered => ?_⟩
    cases delivered <;> trivial

end Reads

/-- **Nothing is read but for a signed request, and only the layers it renders to.** A request is
refused at once, or its signature holds over the very bytes that parse to it; then, whatever is
answered, only those layers are queued and listed, and a secret is revealed only at a direct child
of one of them. -/
theorem reads_confined_to_signed_request (state : AppState) (request_target : Text)
    (headers : HeaderMap) (body : List UInt8) (now : SystemTime) :
    (∃ error, resolve state request_target headers body now = .done (.error error)) ∨
      verify state.verifier request_target headers body now = .ok () ∧
        ∃ request, state.serde.from_slice body = .ok request ∧
          (resolve state request_target headers body now).Asks
            (Confined (state.layers.render request)) := by
  unfold resolve
  cases verify state.verifier request_target headers body now with
  | error reason => exact .inl ⟨_, rfl⟩
  | ok _ =>
    cases state.serde.from_slice body with
    | error error => exact .inl ⟨_, rfl⟩
    | ok request => exact .inr ⟨rfl, request, rfl, (fetch_confined _).bind fun _ => trivial⟩

end SovereignConfig.Broker
