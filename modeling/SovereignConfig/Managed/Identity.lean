/-
The usernames of `managed/identity.rs`. The slug is cut to a length and trimmed of hyphens, but the
identifier behind it has a fixed length, so a username always gives it back.
-/
import SovereignConfig.Client.Connection
import SovereignConfig.Managed.Connection

namespace SovereignConfig.Managed

open Lib Text List Base64
open SovereignConfig.Connection (is_ascii_control parse_client_authentication)

def CONNECTION_ID_CHARS : ℕ := 32

def username_char (c : Char) : Bool := c.isLower || c.isDigit || c == '-'

/-- No two hyphens are next to each other. -/
def Single (t : Text) : Prop := t.IsChain fun a b => a ≠ '-' ∨ b ≠ '-'

structure Slug (slug : Text) : Prop where
  chars : ∀ c ∈ slug, username_char c = true
  short : slug.length ≤ USERNAME_SLUG_MAX_CHARS
  single : Single slug
  head : slug.head? ≠ some '-'

variable {slug name : Text} {c : Char} {id id' : ConnectionId}

theorem lower_alphanum (h : c.toLower.isAlphanum = true) :
    username_char c.toLower = true ∧ c.toLower ≠ '-' := by
  have hcha : c.toLower.isLower = true ∨ c.toLower.isDigit = true := by
    rw [Char.isAlphanum, Bool.or_eq_true, Char.isAlpha_toLower_eq_isAlpha] at h
    rcases h with h | h
    · exact Or.inl (by rwa [Char.isLower_toLower_eq_isAlpha])
    · exact Or.inr h
  refine ⟨?_, ?_⟩
  · rw [username_char, Bool.or_eq_true, Bool.or_eq_true]
    exact Or.inl hcha
  · intro heq
    rw [heq] at hcha
    exact absurd hcha (by decide)

theorem Slug.push (h : Slug slug) (hc : username_char c = true)
    (hlen : slug.length < USERNAME_SLUG_MAX_CHARS)
    (hlas : c = '-' → slug ≠ [] ∧ slug.getLast? ≠ some '-') : Slug (slug ++ [c]) where
  chars d hd := by
    rcases mem_append.mp hd with hd | hd
    · exact h.chars d hd
    · rwa [mem_singleton.mp hd]
  short := by
    rw [length_append, length_singleton]
    omega
  single := by
    refine isChain_append.mpr ⟨h.single, isChain_singleton _, ?_⟩
    rintro a ha b hb
    by_cases hhyp : c = '-'
    · refine Or.inl fun heq => (hlas hhyp).2 ?_
      rw [← heq]
      exact ha
    · obtain rfl : c = b := by simpa using hb
      exact Or.inr hhyp
  head := by
    cases slug with
    | nil => simpa using fun heq => (hlas heq).1 rfl
    | cons d slug => exact h.head

theorem Slug.loop (h : Slug slug) : Slug (slug_loop slug name) := by
  induction name generalizing slug with
  | nil => exact h
  | cons character rest ih =>
    rw [slug_loop]
    split_ifs with halp hful hhyp
    · exact h
    · obtain ⟨hcha, hne⟩ := lower_alphanum halp
      exact ih (h.push hcha (not_le.mp hful) fun heq => absurd heq hne)
    · simp only [Bool.and_eq_true, Bool.not_eq_true', isEmpty_eq_false_iff, bne_iff_ne,
        decide_eq_true_eq] at hhyp
      exact ih (h.push rfl hhyp.2 fun _ => hhyp.1)
    · exact ih h

theorem slug_spec (name : Text) :
    Slug (username_slug name) ∧ (username_slug name).getLast? ≠ some '-' := by
  have hloo : Slug (slug_loop [] name) :=
    Slug.loop ⟨by simp, Nat.zero_le _, isChain_nil, by simp⟩
  obtain ⟨rest, hres⟩ := rdropWhile_prefix (· == '-') (l := slug_loop [] name)
  rw [← hres] at hloo
  refine ⟨⟨fun c hc => hloo.chars c (mem_append_left _ hc), ?_, ?_, ?_⟩, ?_⟩
  · have hsho := hloo.short
    rw [length_append] at hsho
    exact le_trans (Nat.le_add_right _ _) hsho
  · exact (isChain_append.mp hloo.single).1
  · intro hhea
    refine hloo.head ?_
    rw [head?_append]
    show (username_slug name).head?.or _ = _
    rw [hhea]
    rfl
  · intro hlas
    have hne : (slug_loop [] name).rdropWhile (· == '-') ≠ [] := by
      rintro hnil
      rw [username_slug, hnil] at hlas
      cases hlas
    have hnot := rdropWhile_last_not (· == '-') _ hne
    rw [username_slug, getLast?_eq_some_getLast hne] at hlas
    exact hnot (by rw [Option.some.inj hlas]; rfl)

theorem id_chars (id : ConnectionId) (h : c ∈ id.as_str) :
    username_char c = true ∧ c ≠ '-' := by
  have hok := id.ok
  rw [connection_id_ok, Bool.and_eq_true, all_eq_true] at hok
  have hc := hok.2 c h
  refine ⟨by rw [username_char, hc, Bool.true_or], ?_⟩
  rintro rfl
  exact absurd hc (by decide)

theorem username_cut (id : ConnectionId) (name : Text) :
    ∃ front, managed_username id name = front ++ id.as_str ∧ front.length ≤ 44 ∧
      (∀ c ∈ front, username_char c = true) ∧ Single front := by
  have hpre : (∀ c ∈ USERNAME_PREFIX, username_char c = true) ∧ Single USERNAME_PREFIX :=
    ⟨all_eq_true.mp (by decide), by rw [Single]; decide⟩
  obtain ⟨hslu, hlas⟩ := slug_spec name
  rw [managed_username]
  by_cases hemp : (username_slug name).isEmpty = true
  · rw [if_pos hemp]
    exact ⟨_, rfl, by decide, hpre⟩
  · rw [if_neg hemp]
    refine ⟨USERNAME_PREFIX ++ username_slug name ++ ['-'], by simp, ?_, ?_, ?_⟩
    · have hsho := hslu.short
      simp only [length_append, length_singleton, USERNAME_SLUG_MAX_CHARS] at hsho ⊢
      have hlen : USERNAME_PREFIX.length = 11 := rfl
      omega
    · intro c hc
      rcases mem_append.mp hc with hc | hc
      · rcases mem_append.mp hc with hc | hc
        · exact hpre.1 c hc
        · exact hslu.chars c hc
      · rw [mem_singleton.mp hc]
        rfl
    · have hfro : Single (USERNAME_PREFIX ++ username_slug name) := by
        refine isChain_append.mpr ⟨hpre.2, hslu.single, fun a _ b hb => Or.inr ?_⟩
        rintro rfl
        exact hslu.head hb
      refine isChain_append.mpr ⟨hfro, isChain_singleton _, fun a ha b _ => Or.inl ?_⟩
      rintro rfl
      have hne : username_slug name ≠ [] := fun hnil => hemp (by rw [hnil]; rfl)
      rw [getLast?_append_of_ne_nil _ hne] at ha
      exact hlas ha

theorem username_bytes {t : Text} (h : ∀ c ∈ t, username_char c = true) :
    (as_bytes t).any is_ascii_control = false := by
  have hone : ∀ n < 128, username_char (Char.ofNat n) = true →
      (String.utf8EncodeChar (Char.ofNat n)).any is_ascii_control = false := by
    decide +kernel
  rw [as_bytes, any_flatMap, any_eq_false]
  intro c hc
  have hcha := h c hc
  have hlt : c.toNat < 128 := by
    simp only [username_char, Char.isLower, Char.isDigit, Bool.or_eq_true, Bool.and_eq_true,
      decide_eq_true_eq, beq_iff_eq, UInt32.le_iff_toNat_le, ge_iff_le] at hcha
    have hnat : c.toNat = c.val.toNat := rfl
    rcases hcha with (⟨-, hz⟩ | ⟨-, hnin⟩) | rfl
    · exact hnat ▸ lt_of_le_of_lt hz (by decide)
    · exact hnat ▸ lt_of_le_of_lt hnin (by decide)
    · decide
  rw [← Char.ofNat_toNat c] at hcha ⊢
  rw [hone _ hlt hcha]
  exact Bool.false_ne_true

/-- **Whether a credential is accepted is decided by its password,** given a proper username. -/
theorem credential_accepted_iff {username password : Text} (hne : username ≠ [])
    (hcol : ':' ∉ username) (hcle : (as_bytes username).any is_ascii_control = false) :
    (∃ basic, parse_client_authentication
        (URL_SAFE_NO_PAD.encode (as_bytes (username ++ ':' :: password))) = .ok basic) ↔
      password ≠ [] ∧ (as_bytes password).any is_ascii_control = false := by
  have hbytes : (as_bytes (username ++ ':' :: password)).any is_ascii_control =
      (as_bytes password).any is_ascii_control := by
    rw [as_bytes, flatMap_append, flatMap_cons, any_append, any_append]
    rw [as_bytes] at hcle
    rw [hcle]
    rfl
  have hspl := split_once_append password hcol
  simp only [parse_client_authentication, bind_eq_ok, ensure_eq_ok, ok_or_eq_ok,
    URL_SAFE_NO_PAD.decode_encode, Option.some.injEq, pure, Except.pure, Except.ok.injEq]
  constructor
  · rintro ⟨_, -, -, _, rfl, -, -, text, htex, parts, hpar, -, hche, -⟩
    rw [from_utf8_as_bytes, Option.some.injEq] at htex
    rw [← htex, hspl, Option.some.injEq] at hpar
    rw [← hpar, hbytes] at hche
    exact hche.2
  · intro hpas
    refine ⟨_, (), ⟨?_, Base64.pad_not_mem_encode_url _⟩, _, rfl, (), rfl, _, from_utf8_as_bytes _, _,
      hspl, (), ⟨hne, hpas.1, hbytes.trans hpas.2⟩, rfl⟩
    intro hnil
    have hinj := URL_SAFE_NO_PAD.encode_injective
      (hnil.trans (show [] = URL_SAFE_NO_PAD.encode [] from rfl))
    have htex := as_bytes_injective (hinj.trans (show [] = as_bytes [] from rfl))
    simp at htex

/-- **A managed username is well formed and identifies its connection,** whatever its display name,
and `ConnectionUrl::managed` never refuses it: what is left to refuse is the password. -/
theorem usernames_identify_connections :
    (∀ (id : ConnectionId) (name : Text), id.as_str.length = CONNECTION_ID_CHARS →
      (∀ c ∈ managed_username id name, c.isLower = true ∨ c.isDigit = true ∨ c = '-') ∧
      (managed_username id name).length ≤ 76 ∧
      Single (managed_username id name) ∧
      (managed_username id name).getLast? ≠ some '-' ∧
      ':' ∉ managed_username id name ∧
      (as_bytes (managed_username id name)).any is_ascii_control = false ∧
      ∀ password, (∃ basic, parse_client_authentication
          (URL_SAFE_NO_PAD.encode (as_bytes (managed_username id name ++ ':' :: password))) =
            .ok basic) ↔
        password ≠ [] ∧ (as_bytes password).any is_ascii_control = false) ∧
    ∀ (id id' : ConnectionId) (name name' : Text), id.as_str.length = CONNECTION_ID_CHARS →
      id'.as_str.length = CONNECTION_ID_CHARS →
      managed_username id name = managed_username id' name' → id = id' := by
  constructor
  · intro id name hlength
    obtain ⟨front, hcut, hfro, hcha, hsin⟩ := username_cut id name
    have hid : id.as_str ≠ [] := fun hnil => by rw [hnil] at hlength; cases hlength
    have hall : ∀ c ∈ managed_username id name, username_char c = true := by
      rw [hcut]
      intro c hc
      exact (mem_append.mp hc).elim (hcha c) fun hc => (id_chars id hc).1
    have hcol : ':' ∉ managed_username id name := fun hc => absurd (hall _ hc) (by decide)
    have hne : managed_username id name ≠ [] := by
      rw [hcut]
      exact append_ne_nil_of_right_ne_nil _ hid
    refine ⟨fun c hc => ?_, ?_, ?_, ?_, hcol, username_bytes hall, fun password =>
      credential_accepted_iff hne hcol (username_bytes hall)⟩
    · simpa [username_char, or_assoc] using hall c hc
    · rw [hcut, length_append, hlength, CONNECTION_ID_CHARS]
      omega
    · rw [hcut]
      refine isChain_append.mpr ⟨hsin, ?_, fun a _ b hb => Or.inr ?_⟩
      · refine List.Pairwise.isChain (pairwise_of_forall_mem_list fun a ha b _ => ?_)
        exact Or.inl (id_chars id ha).2
      · exact (id_chars id (mem_of_mem_head? hb)).2
    · rw [hcut, getLast?_append_of_ne_nil _ hid]
      exact fun hlas => (id_chars id (mem_of_mem_getLast? hlas)).2 rfl
  · intro id id' name name' hlength hlength' heq
    obtain ⟨front, hcut, -⟩ := username_cut id name
    obtain ⟨front', hcut', -⟩ := username_cut id' name'
    rw [hcut, hcut'] at heq
    have hid := (append_inj' heq (hlength.trans hlength'.symm)).2
    cases id
    cases id'
    congr

def sample_id : ConnectionId := ⟨"abcdefghijklmnopqrstuvwxyz012345".toList, by decide⟩

/-- A display name that looks like another connection's username. -/
theorem lookalike_is_identified :
    ∃ name, ':' ∉ managed_username sample_id name ∧
      managed_username sample_id name =
        "sc-managed-sc-managed-x-abc-abcdefghijklmnopqrstuvwxyz012345".toList :=
  ⟨"SC-managed--X-abc-".toList,
    (usernames_identify_connections.1 sample_id _ (by decide)).2.2.2.2.1, by decide +kernel⟩

end SovereignConfig.Managed
