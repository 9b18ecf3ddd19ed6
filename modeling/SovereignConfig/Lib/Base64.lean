/-
Base64. An `Engine` is what a program may assume of an encoding; `STANDARD` and `URL_SAFE_NO_PAD`
are the two engines in use, with the alphabet and the padding each has. The decoders are strict:
the padding is exactly what the alphabet asks for, stands only at the end, and covers zero bits.
-/
import Mathlib.Data.List.Basic
import Mathlib.Data.Nat.Notation

namespace SovereignConfig.Lib.Base64

open List

def alphabet : List Char :=
  "ABCDEFGHIJKLMNOPQRSTUVWXYZabcdefghijklmnopqrstuvwxyz0123456789+/".toList

def sextet_char (n : ℕ) : Char := alphabet.getD n '='

def char_sextet (c : Char) : Option ℕ :=
  if alphabet.idxOf c < 64 then some (alphabet.idxOf c) else none

theorem char_sextet_char : ∀ n < 64, char_sextet (sextet_char n) = some n := by decide +kernel

theorem sextet_char_ne_pad : ∀ n < 64, sextet_char n ≠ '=' := by decide +kernel

theorem sextet_char_mem : ∀ n < 64, sextet_char n ∈ alphabet := by decide +kernel

def encode : List UInt8 → List Char
  | [] => []
  | [a] => [sextet_char (a.toNat / 4), sextet_char (a.toNat % 4 * 16), '=', '=']
  | [a, b] =>
    [sextet_char (a.toNat / 4), sextet_char (a.toNat % 4 * 16 + b.toNat / 16),
      sextet_char (b.toNat % 16 * 4), '=']
  | a :: b :: c :: rest =>
    sextet_char (a.toNat / 4) :: sextet_char (a.toNat % 4 * 16 + b.toNat / 16)
      :: sextet_char (b.toNat % 16 * 4 + c.toNat / 64) :: sextet_char (c.toNat % 64)
      :: encode rest

def decode_padded (w x y : Char) : Option (List UInt8) := do
  let w ← char_sextet w
  let x ← char_sextet x
  if y = '=' then
    if x % 16 = 0 then some [UInt8.ofNat (w * 4 + x / 16)] else none
  else
    let y ← char_sextet y
    if y % 4 = 0 then some [UInt8.ofNat (w * 4 + x / 16), UInt8.ofNat (x % 16 * 16 + y / 4)]
    else none

def decode : List Char → Option (List UInt8)
  | [] => some []
  | w :: x :: y :: z :: rest =>
    if rest = [] ∧ z = '=' then decode_padded w x y
    else do
      let w ← char_sextet w
      let x ← char_sextet x
      let y ← char_sextet y
      let z ← char_sextet z
      let bytes ← decode rest
      some (UInt8.ofNat (w * 4 + x / 16) :: UInt8.ofNat (x % 16 * 16 + y / 4)
        :: UInt8.ofNat (y % 4 * 64 + z) :: bytes)
  | _ => none

theorem ofNat_of_toNat {b : UInt8} {n : ℕ} (h : n = b.toNat) : UInt8.ofNat n = b := by
  rw [h, UInt8.ofNat_toNat]

theorem decode_encode (bytes : List UInt8) : decode (encode bytes) = some bytes := by
  fun_induction encode bytes with
  | case1 => rfl
  | case2 a =>
    have ha := a.toNat_lt
    rw [decode, if_pos ⟨rfl, rfl⟩, decode_padded, char_sextet_char _ (by omega),
      char_sextet_char _ (by omega)]
    simp only [Option.bind_eq_bind, Option.bind_some, if_true]
    rw [if_pos (by omega), ofNat_of_toNat (b := a) (by omega)]
  | case3 a b =>
    have ha := a.toNat_lt
    have hb := b.toNat_lt
    rw [decode, if_pos ⟨rfl, rfl⟩, decode_padded, char_sextet_char _ (by omega),
      char_sextet_char _ (by omega), char_sextet_char _ (by omega)]
    simp only [Option.bind_eq_bind, Option.bind_some]
    rw [if_neg (sextet_char_ne_pad _ (by omega)), if_pos (by omega),
      ofNat_of_toNat (b := a) (by omega), ofNat_of_toNat (b := b) (by omega)]
  | case4 a b c rest ih =>
    have ha := a.toNat_lt
    have hb := b.toNat_lt
    have hc := c.toNat_lt
    rw [decode, if_neg fun h => sextet_char_ne_pad _ (by omega) h.2, char_sextet_char _ (by omega),
      char_sextet_char _ (by omega), char_sextet_char _ (by omega), char_sextet_char _ (by omega), ih]
    simp only [Option.bind_eq_bind, Option.bind_some]
    rw [ofNat_of_toNat (b := a) (by omega), ofNat_of_toNat (b := b) (by omega),
      ofNat_of_toNat (b := c) (by omega)]

theorem mem_encode {bytes : List UInt8} {c : Char} (h : c ∈ encode bytes) :
    c ∈ alphabet ∨ c = '=' := by
  fun_induction encode bytes with
  | case1 => exact absurd h not_mem_nil
  | case2 a =>
    have ha := a.toNat_lt
    simp only [mem_cons, not_mem_nil, or_false] at h
    rcases h with rfl | rfl | rfl | rfl
    · exact Or.inl (sextet_char_mem _ (by omega))
    · exact Or.inl (sextet_char_mem _ (by omega))
    · exact Or.inr rfl
    · exact Or.inr rfl
  | case3 a b =>
    have ha := a.toNat_lt
    have hb := b.toNat_lt
    simp only [mem_cons, not_mem_nil, or_false] at h
    rcases h with rfl | rfl | rfl | rfl
    · exact Or.inl (sextet_char_mem _ (by omega))
    · exact Or.inl (sextet_char_mem _ (by omega))
    · exact Or.inl (sextet_char_mem _ (by omega))
    · exact Or.inr rfl
  | case4 a b c rest ih =>
    have ha := a.toNat_lt
    have hb := b.toNat_lt
    have hc := c.toNat_lt
    simp only [mem_cons] at h
    rcases h with rfl | rfl | rfl | rfl | h
    · exact Or.inl (sextet_char_mem _ (by omega))
    · exact Or.inl (sextet_char_mem _ (by omega))
    · exact Or.inl (sextet_char_mem _ (by omega))
    · exact Or.inl (sextet_char_mem _ (by omega))
    · exact ih h

def url_char (c : Char) : Char := if c = '+' then '-' else if c = '/' then '_' else c

def standard_char (c : Char) : Char := if c = '-' then '+' else if c = '_' then '/' else c

def encode_url (bytes : List UInt8) : List Char :=
  ((encode bytes).filter (· != '=')).map url_char

def pad (length : ℕ) : List Char := List.replicate ((4 - length % 4) % 4) '='

def decode_url (t : List Char) : Option (List UInt8) :=
  if t.any fun c => c == '=' || c == '+' || c == '/' then none
  else decode (t.map standard_char ++ pad t.length)

theorem encode_eq_padded (bytes : List UInt8) : encode bytes =
    (encode bytes).filter (· != '=') ++ pad ((encode bytes).filter (· != '=')).length := by
  fun_induction encode bytes with
  | case1 => rfl
  | case2 a =>
    have ha := a.toNat_lt
    simp [sextet_char_ne_pad _ (show a.toNat / 4 < 64 by omega),
      sextet_char_ne_pad _ (show a.toNat % 4 * 16 < 64 by omega), pad]
  | case3 a b =>
    have ha := a.toNat_lt
    have hb := b.toNat_lt
    simp [sextet_char_ne_pad _ (show a.toNat / 4 < 64 by omega),
      sextet_char_ne_pad _ (show a.toNat % 4 * 16 + b.toNat / 16 < 64 by omega),
      sextet_char_ne_pad _ (show b.toNat % 16 * 4 < 64 by omega), pad]
  | case4 a b c rest ih =>
    have ha := a.toNat_lt
    have hb := b.toNat_lt
    have hc := c.toNat_lt
    have hpad : ∀ n, pad (n + 1 + 1 + 1 + 1) = pad n := fun n => by
      unfold pad
      congr 1
      omega
    simp only [filter_cons, bne_iff_ne, ne_eq,
      sextet_char_ne_pad _ (show a.toNat / 4 < 64 by omega),
      sextet_char_ne_pad _ (show a.toNat % 4 * 16 + b.toNat / 16 < 64 by omega),
      sextet_char_ne_pad _ (show b.toNat % 16 * 4 + c.toNat / 64 < 64 by omega),
      sextet_char_ne_pad _ (show c.toNat % 64 < 64 by omega), not_false_eq_true, if_true,
      length_cons, hpad, cons_append]
    rw [← ih]

theorem url_alphabet : alphabet.all (fun c => standard_char (url_char c) == c &&
    url_char c != '=' && url_char c != '+' && url_char c != '/') = true := by
  decide +kernel

theorem decode_url_encode_url (bytes : List UInt8) : decode_url (encode_url bytes) = some bytes := by
  have hcha : ∀ c ∈ (encode bytes).filter (· != '='), standard_char (url_char c) = c ∧
      url_char c ≠ '=' ∧ url_char c ≠ '+' ∧ url_char c ≠ '/' := by
    intro c hc
    obtain ⟨hmem, hne⟩ := mem_filter.mp hc
    have halp := (mem_encode hmem).resolve_right (by simpa using hne)
    have hall := all_eq_true.mp url_alphabet c halp
    simp only [Bool.and_eq_true, beq_iff_eq, bne_iff_ne] at hall
    exact ⟨hall.1.1.1, hall.1.1.2, hall.1.2, hall.2⟩
  have hbac : (encode_url bytes).map standard_char = (encode bytes).filter (· != '=') := by
    rw [encode_url, map_map]
    exact (map_congr_left fun c hc => (hcha c hc).1).trans (map_id _)
  have hcle : ¬ ((encode_url bytes).any fun c => c == '=' || c == '+' || c == '/') = true := by
    rw [any_eq_true]
    rintro ⟨c, hc, hbad⟩
    obtain ⟨c', hc', rfl⟩ := mem_map.mp hc
    obtain ⟨-, h₁, h₂, h₃⟩ := hcha c' hc'
    simp [h₁, h₂, h₃] at hbad
  have hlength : (encode_url bytes).length = ((encode bytes).filter (· != '=')).length :=
    length_map ..
  rw [decode_url, if_neg hcle, hbac, hlength, ← encode_eq_padded, decode_encode]

theorem pad_not_mem_encode_url (bytes : List UInt8) : '=' ∉ encode_url bytes := by
  intro hmem
  have hany : ((encode_url bytes).any fun c => c == '=' || c == '+' || c == '/') = true :=
    any_eq_true.mpr ⟨_, hmem, rfl⟩
  have hdec := decode_url_encode_url bytes
  rw [decode_url, if_pos hany] at hdec
  cases hdec

/-! ## Engines -/

/-- An encoding of bytes as text, and the decoder that reads it back. -/
structure Engine where
  encode : List UInt8 → List Char
  decode : List Char → Option (List UInt8)
  decode_encode : ∀ bytes, decode (encode bytes) = some bytes

theorem Engine.encode_injective (self : Engine) {bytes other : List UInt8}
    (h : self.encode bytes = self.encode other) : bytes = other := by
  have hdec := congrArg self.decode h
  rwa [self.decode_encode, self.decode_encode, Option.some.injEq] at hdec

def STANDARD : Engine := ⟨encode, decode, decode_encode⟩

def URL_SAFE_NO_PAD : Engine := ⟨encode_url, decode_url, decode_url_encode_url⟩

end SovereignConfig.Lib.Base64
