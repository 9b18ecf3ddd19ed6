/-
A Rust `str` as its list of characters. Paths are ASCII, so on them a byte index is a character
index. `str::cmp` is the lexicographic order on characters.
-/
import Mathlib

namespace SovereignConfig

open List

/-- A `str`. -/
abbrev Text := List Char

namespace Text

/-- `str::strip_prefix`. -/
def strip_prefix_of : Text → Text → Option Text
  | t, [] => some t
  | [], _ :: _ => none
  | c :: t, p :: ps => if c = p then strip_prefix_of t ps else none

/-- `str::starts_with`, also PostgreSQL's `starts_with`. -/
def starts_with (t p : Text) : Bool := p.isPrefixOf t

/-- `str::to_ascii_lowercase`; on the stored path grammar also PostgreSQL's `lower`. -/
def to_ascii_lowercase (t : Text) : Text := t.map Char.toLower

/-- `str::contains` for one character. -/
def contains_char (t : Text) (c : Char) : Bool := t.any (· == c)

/-- `str::len`: bytes of the UTF-8 form. -/
def byte_len (t : Text) : ℕ := (t.map Char.utf8Size).sum

/-- `char::is_whitespace`: the property White_Space. -/
def is_whitespace (c : Char) : Bool :=
  (0x9 ≤ c.toNat && c.toNat ≤ 0xd) || c.toNat == 0x20 || c.toNat == 0x85 || c.toNat == 0xa0
    || c.toNat == 0x1680 || (0x2000 ≤ c.toNat && c.toNat ≤ 0x200a) || c.toNat == 0x2028
    || c.toNat == 0x2029 || c.toNat == 0x202f || c.toNat == 0x205f || c.toNat == 0x3000

/-- `str::trim`. -/
def trim (t : Text) : Text :=
  ((t.dropWhile is_whitespace).reverse.dropWhile is_whitespace).reverse

/-- `char::is_control`: the general category Cc. -/
def is_control (c : Char) : Bool := c.toNat < 0x20 || (0x7f ≤ c.toNat && c.toNat < 0xa0)

/-- `str::as_bytes`. -/
def as_bytes (t : Text) : List UInt8 := t.flatMap String.utf8EncodeChar

/-- `String::from_utf8`. -/
def from_utf8 (bytes : List UInt8) : Option Text :=
  bytes.toByteArray.utf8Decode?.map Array.toList

@[simp] theorem from_utf8_as_bytes (t : Text) : from_utf8 (as_bytes t) = some t := by
  show (t.utf8Encode.utf8Decode?).map Array.toList = some t
  rw [utf8Decode?_utf8Encode, Option.map_some, toList_toArray]

variable {t u p : Text} {c : Char}

theorem as_bytes_injective (h : as_bytes t = as_bytes u) : t = u := by
  have hdec := congrArg from_utf8 h
  rwa [from_utf8_as_bytes, from_utf8_as_bytes, Option.some.injEq] at hdec

theorem trim_spec (t : Text) : ∃ before after, t = before ++ trim t ++ after ∧
    (∀ c ∈ before, is_whitespace c = true) ∧ ∀ c ∈ after, is_whitespace c = true := by
  refine ⟨t.takeWhile is_whitespace,
    (((t.dropWhile is_whitespace).reverse.takeWhile is_whitespace)).reverse, ?_, ?_, ?_⟩
  · rw [trim, append_assoc, ← reverse_append, takeWhile_append_dropWhile,
      reverse_reverse, takeWhile_append_dropWhile]
  · exact fun c hc => mem_takeWhile_imp hc
  · exact fun c hc => mem_takeWhile_imp (mem_reverse.mp hc)

theorem mem_of_mem_trim (h : c ∈ trim t) : c ∈ t := by
  obtain ⟨before, after, ht, -⟩ := trim_spec t
  rw [ht]
  exact mem_append_left _ (mem_append_right _ h)

theorem trim_of_ends (hhea : ∀ c ∈ t.head?, is_whitespace c = false)
    (hlas : ∀ c ∈ t.getLast?, is_whitespace c = false) : trim t = t := by
  have hdro : t.dropWhile is_whitespace = t := by
    cases t with
    | nil => rfl
    | cons c t => rw [dropWhile_cons, hhea c rfl, if_neg Bool.false_ne_true]
  have hdro' : t.reverse.dropWhile is_whitespace = t.reverse := by
    cases hr : t.reverse with
    | nil => rfl
    | cons c r =>
      have hc : c ∈ t.getLast? := by
        rw [← head?_reverse, hr]
        rfl
      rw [dropWhile_cons, hlas c hc, if_neg Bool.false_ne_true]
  rw [trim, hdro, hdro', reverse_reverse]

theorem starts_with_iff (t p : Text) : starts_with t p = true ↔ p <+: t := by
  simp [starts_with]

theorem strip_prefix_eq_some : strip_prefix_of t p = some u ↔ t = p ++ u := by
  induction p generalizing t with
  | nil => cases t <;> simp [strip_prefix_of, eq_comm]
  | cons c p ih =>
    cases t with
    | nil => simp [strip_prefix_of]
    | cons b t =>
      by_cases h : b = c
      · subst h; simp [strip_prefix_of, ih]
      · simp [strip_prefix_of, h]

theorem strip_prefix_then :
    (strip_prefix_of t p).any (fun suffix => starts_with suffix [c]) = true ↔ p ++ [c] <+: t := by
  constructor
  · intro h
    obtain ⟨u, hu, hs⟩ := (Option.any_eq_true_iff_get _ _).mp h |> fun ⟨h₁, h₂⟩ =>
      (⟨_, (Option.some_get h₁).symm, h₂⟩ :
        ∃ u, strip_prefix_of t p = some u ∧ starts_with u [c] = true)
    rw [strip_prefix_eq_some.mp hu]
    exact prefix_append_right_inj p |>.mpr ((starts_with_iff _ _).mp hs)
  · rintro ⟨v, hv⟩
    have hu : strip_prefix_of t p = some ([c] ++ v) := by
      rw [strip_prefix_eq_some, ← hv, append_assoc]
    rw [hu]
    simp [starts_with]

end Text

end SovereignConfig
