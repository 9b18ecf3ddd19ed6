/-
`application/x-www-form-urlencoded`, byte by byte, and its round trip. Reading bytes that are not
UTF-8 is left to a parameter.
-/
import SovereignConfig.Lib.Decimal
import SovereignConfig.Text

namespace SovereignConfig.Lib.FormUrlencoded

open Text List

def unchanged (b : UInt8) : Bool :=
  let c := Char.ofNat b.toNat
  decide (b.toNat < 128) && (c.isAlphanum || c == '*' || c == '-' || c == '.' || c == '_')

def hex_digit (n : ℕ) : Char := "0123456789ABCDEF".toList.getD n '0'

def hex_value (b : UInt8) : Option ℕ :=
  if 48 ≤ b.toNat ∧ b.toNat ≤ 57 then some (b.toNat - 48)
  else if 65 ≤ b.toNat ∧ b.toNat ≤ 70 then some (b.toNat - 55)
  else if 97 ≤ b.toNat ∧ b.toNat ≤ 102 then some (b.toNat - 87)
  else none

def encode_byte (b : UInt8) : Text :=
  if unchanged b then [Char.ofNat b.toNat]
  else if b.toNat = 32 then ['+']
  else ['%', hex_digit (b.toNat / 16), hex_digit (b.toNat % 16)]

def encode (t : Text) : Text := (as_bytes t).flatMap encode_byte

/-- A `%` that no two hexadecimal digits follow stands for itself. -/
def percent_decode : List UInt8 → List UInt8
  | x :: a :: b :: rest =>
    if x = 37 then
      match hex_value a, hex_value b with
      | some high, some low => UInt8.ofNat (high * 16 + low) :: percent_decode rest
      | _, _ => x :: percent_decode (a :: b :: rest)
    else x :: percent_decode (a :: b :: rest)
  | x :: rest => x :: percent_decode rest
  | [] => []

def plus_to_space (bytes : List UInt8) : List UInt8 := bytes.map fun b => if b = 43 then 32 else b

variable (lossy : List UInt8 → Text)

/-- `lossy` reads what is not UTF-8. -/
def decode (t : Text) : Text :=
  let bytes := percent_decode (plus_to_space (as_bytes t))
  (from_utf8 bytes).getD (lossy bytes)

def serialize (pairs : List (Text × Text)) : Text :=
  ['&'].intercalate (pairs.map fun pair => encode pair.1 ++ '=' :: encode pair.2)

def parse_pair (sequence : Text) : Text × Text :=
  match split_once '=' sequence with
  | some (name, value) => (decode lossy name, decode lossy value)
  | none => (decode lossy sequence, [])

def parse (t : Text) : List (Text × Text) :=
  ((t.splitOn '&').filter fun sequence => !sequence.isEmpty).map (parse_pair lossy)

def encoded_bytes (b : UInt8) : List UInt8 := as_bytes (encode_byte b)

theorem encoded_cases : ∀ n < 256,
    (encoded_bytes (UInt8.ofNat n) = [UInt8.ofNat n] ∧ n ≠ 37 ∧ n ≠ 43) ∨
    (encoded_bytes (UInt8.ofNat n) = [43] ∧ n = 32) ∨
    ∃ high < 16, ∃ low < 16, n = high * 16 + low ∧
      encoded_bytes (UInt8.ofNat n) =
        [37, UInt8.ofNat (hex_digit high).toNat, UInt8.ofNat (hex_digit low).toNat] := by
  decide +kernel

theorem hex_value_digit : ∀ n < 16, hex_value (UInt8.ofNat (hex_digit n).toNat) = some n ∧
    UInt8.ofNat (hex_digit n).toNat ≠ 43 := by
  decide +kernel

theorem encoded_chars : ∀ n < 256, (encode_byte (UInt8.ofNat n)).all
    (fun c => c != '&' && c != '=' && c != '#') = true := by
  decide +kernel

theorem percent_decode_cons {x : UInt8} (h : x ≠ 37) (rest : List UInt8) :
    percent_decode (x :: rest) = x :: percent_decode rest := by
  match rest with
  | [] => rfl
  | [_] => rfl
  | a :: b :: rest => rw [percent_decode, if_neg h]

theorem decode_encoded_byte (b : UInt8) (rest : List UInt8) :
    percent_decode (plus_to_space (encoded_bytes b ++ rest)) =
      b :: percent_decode (plus_to_space rest) := by
  have hb : b = UInt8.ofNat b.toNat := (UInt8.ofNat_toNat).symm
  have hmap : ∀ l, plus_to_space (l ++ rest) = plus_to_space l ++ plus_to_space rest :=
    fun l => map_append
  rw [hmap]
  rcases encoded_cases b.toNat b.toNat_lt with ⟨hbytes, hper, hplu⟩ | ⟨hbytes, hspa⟩ |
    ⟨high, hhigh, low, hlow, hval, hbytes⟩
  · rw [← hb] at hbytes
    have hne : b ≠ 43 := fun h => hplu (by rw [h]; rfl)
    rw [hbytes, plus_to_space, map_cons, if_neg hne]
    exact percent_decode_cons (fun h => hper (by rw [h]; rfl)) _
  · rw [← hb] at hbytes
    rw [hbytes]
    show percent_decode (32 :: plus_to_space rest) = _
    rw [percent_decode_cons (by decide), hb, hspa]
    rfl
  · obtain ⟨hhig, hhigh_plus⟩ := hex_value_digit high hhigh
    obtain ⟨hlow_v, hlow_p⟩ := hex_value_digit low hlow
    rw [← hb] at hbytes
    rw [hbytes, plus_to_space, map_cons, map_cons, map_cons, if_neg (by decide),
      if_neg hhigh_plus, if_neg hlow_p]
    show percent_decode (37 :: _ :: _ :: plus_to_space rest) = _
    rw [percent_decode, if_pos rfl, hhig, hlow_v]
    simp only
    rw [← hval, ← hb]

theorem as_bytes_encode (t : Text) : as_bytes (encode t) = (as_bytes t).flatMap encoded_bytes := by
  unfold encode as_bytes
  rw [flatMap_assoc]
  rfl

@[simp] theorem decode_encode (t : Text) : decode lossy (encode t) = t := by
  have hbytes : ∀ bytes : List UInt8,
      percent_decode (plus_to_space (bytes.flatMap encoded_bytes)) = bytes := by
    intro bytes
    induction bytes with
    | nil => rfl
    | cons b bytes ih => rw [flatMap_cons, decode_encoded_byte, ih]
  unfold decode
  simp only [as_bytes_encode, hbytes, from_utf8_as_bytes, Option.getD_some]

theorem mem_encode {t : Text} {c : Char} (h : c ∈ encode t) : c ≠ '&' ∧ c ≠ '=' ∧ c ≠ '#' := by
  obtain ⟨b, -, hc⟩ := mem_flatMap.mp h
  have hall := encoded_chars b.toNat b.toNat_lt
  rw [UInt8.ofNat_toNat, all_eq_true] at hall
  have hcha := hall c hc
  simp only [Bool.and_eq_true, bne_iff_ne] at hcha
  exact ⟨hcha.1.1, hcha.1.2, hcha.2⟩

theorem parse_serialize (pairs : List (Text × Text)) : parse lossy (serialize pairs) = pairs := by
  by_cases hnil : pairs = []
  · subst hnil
    rfl
  · have hfre : ∀ l ∈ pairs.map (fun pair => encode pair.1 ++ '=' :: encode pair.2), '&' ∉ l := by
      intro l hl hmem
      obtain ⟨pair, -, rfl⟩ := mem_map.mp hl
      rcases mem_append.mp hmem with h | h
      · exact (mem_encode h).1 rfl
      · rcases mem_cons.mp h with h | h
        · exact absurd h (by decide)
        · exact (mem_encode h).1 rfl
    have hnon : ∀ l ∈ pairs.map (fun pair => encode pair.1 ++ '=' :: encode pair.2),
        (!l.isEmpty) = true := by
      intro l hl
      obtain ⟨pair, -, rfl⟩ := mem_map.mp hl
      simp
    rw [parse, serialize, splitOn_intercalate _ hfre (by simpa using hnil),
      filter_eq_self.mpr hnon, map_map]
    refine (map_congr_left fun pair _ => ?_).trans (map_id pairs)
    have hspl : split_once '=' (encode pair.1 ++ '=' :: encode pair.2) =
        some (encode pair.1, encode pair.2) :=
      split_once_append _ fun h => (mem_encode h).2.1 rfl
    simp [parse_pair, hspl]

theorem serialize_injective {pairs pairs' : List (Text × Text)}
    (h : serialize pairs = serialize pairs') : pairs = pairs' := by
  rw [← parse_serialize (fun _ => []) pairs, h, parse_serialize]

end SovereignConfig.Lib.FormUrlencoded
