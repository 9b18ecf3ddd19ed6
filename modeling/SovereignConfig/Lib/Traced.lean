/-
The runs of a call, whatever it is answered: a statement about every trace is one about everything
the world may do.
-/
import SovereignConfig.Lib.Call

namespace SovereignConfig.Lib.Call

open List

variable {Q : Type} {A : Q → Type} {ε ε' α β : Type}

abbrev Event (Q : Type) (A : Q → Type) : Type := (q : Q) × A q

inductive Traced : Call Q A ε α → List (Event Q A) → Except ε α → Prop
  | done (r : Except ε α) : Traced (.done r) [] r
  | ask {q : Q} {k : A q → Call Q A ε α} (a : A q) {trace : List (Event Q A)} {r : Except ε α} :
      Traced (k a) trace r → Traced (.ask q k) (⟨q, a⟩ :: trace) r

variable {x : Call Q A ε α} {trace : List (Event Q A)} {r : Except ε α}

theorem Traced.of_done {r' : Except ε α} (h : (Call.done r' : Call Q A ε α).Traced trace r) :
    trace = [] ∧ r = r' := by
  rcases h
  exact ⟨rfl, rfl⟩

theorem Traced.of_ask {q : Q} {k : A q → Call Q A ε α} (h : (Call.ask q k).Traced trace r) :
    ∃ a trace', trace = ⟨q, a⟩ :: trace' ∧ (k a).Traced trace' r := by
  rcases h with _ | ⟨a, hk⟩
  exact ⟨a, _, rfl, hk⟩

theorem Traced.of_bind {f : α → Call Q A ε β} {r : Except ε β} (h : (x.bind f).Traced trace r) :
    (∃ e, x.Traced trace (.error e) ∧ r = .error e) ∨
    ∃ a before after, trace = before ++ after ∧ x.Traced before (.ok a) ∧ (f a).Traced after r := by
  induction x generalizing trace with
  | done r' =>
    cases r' with
    | error e =>
      obtain ⟨rfl, rfl⟩ := h.of_done
      exact .inl ⟨e, .done _, rfl⟩
    | ok a => exact .inr ⟨a, [], trace, rfl, .done _, h⟩
  | ask q k ih =>
    obtain ⟨a, _, rfl, hk⟩ := h.of_ask
    obtain ⟨e, hx, rfl⟩ | ⟨b, before, after, rfl, hx, hf⟩ := ih a hk
    · exact .inl ⟨e, .ask a hx, rfl⟩
    · exact .inr ⟨b, ⟨q, a⟩ :: before, after, rfl, .ask a hx, hf⟩

/-- A call whose error is handed on as a value does not end there. -/
theorem Traced.of_attempt_bind {f : Except ε α → Call Q A ε' β} {r : Except ε' β}
    (h : (x.attempt.bind f).Traced trace r) :
    ∃ r' before after, trace = before ++ after ∧ x.Traced before r' ∧ (f r').Traced after r := by
  induction x generalizing trace with
  | done r' => exact ⟨r', [], trace, rfl, .done _, h⟩
  | ask q k ih =>
    obtain ⟨a, _, rfl, hk⟩ := h.of_ask
    obtain ⟨r', before, after, rfl, hx, hf⟩ := ih a hk
    exact ⟨r', ⟨q, a⟩ :: before, after, rfl, .ask a hx, hf⟩

section Embed

variable {Q' : Type} {A' : Q' → Type} (f : Q → Q')

def embed : Call Q (fun q => A' (f q)) ε α → Call Q' A' ε α
  | done r => done r
  | ask q k => ask (f q) fun a => (k a).embed

variable {f} {x : Call Q (fun q => A' (f q)) ε α} {trace : List (Event Q' A')}

theorem Asks.embed {ok : Q' → Prop} (hx : x.Asks fun q => ok (f q)) : (x.embed f).Asks ok := by
  induction x with
  | done r => trivial
  | ask q k ih => exact ⟨hx.1, fun a => ih a (hx.2 a)⟩

end Embed

end SovereignConfig.Lib.Call
