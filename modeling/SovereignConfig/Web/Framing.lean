/-
`transport/mod.rs`: the frames of a gRPC-Web answer, on a 32-bit target, where the sum of an offset
and a length can fail to be a word.
-/
import SovereignConfig.Lib.Decimal
import SovereignConfig.Lib.Word
import SovereignConfig.Web.Session

namespace SovereignConfig.Web.Transport

open Lib Text List Word

/-! ## Errors (`sovereign-config-client/src/lib.rs`) -/

inductive RpcCode where
  | Unauthenticated
  | PermissionDenied
  | FailedPrecondition
  | Unimplemented
  | VersionNotServed
  | InvalidArgument
  | NotFound
  | AlreadyExists
  | Unavailable
  | Other
deriving DecidableEq

def map_rpc_status : RpcCode → ClientError
  | .Unauthenticated => ⟨.Unauthenticated, "authentication required"⟩
  | .PermissionDenied => ⟨.PermissionDenied, "permission denied"⟩
  | .FailedPrecondition => ⟨.IncompatibleProtocol, "service protocol is incompatible"⟩
  | .Unimplemented => ⟨.IncompatibleProtocol, "service protocol is incompatible"⟩
  | .VersionNotServed =>
      ⟨.VersionNotServed, "the service no longer serves this protocol version"⟩
  | .InvalidArgument => ⟨.InvalidRequest, "request is invalid"⟩
  | .NotFound => ⟨.NotFound, "configuration value not found"⟩
  | .AlreadyExists => ⟨.Conflict, "configuration path already exists"⟩
  | .Unavailable => ⟨.Unavailable, "service is unavailable"⟩
  | .Other => ⟨.Internal, "request failed"⟩

def grpc_status_code (status : ℕ) : RpcCode :=
  match status with
  | 3 => .InvalidArgument
  | 5 => .NotFound
  | 6 => .AlreadyExists
  | 7 => .PermissionDenied
  | 9 => .FailedPrecondition
  | 10 | 14 => .Unavailable
  | 12 => .Unimplemented
  | 16 => .Unauthenticated
  | _ => .Other

def ERROR_KIND_METADATA : Text := "sovereign-config-error-kind".toList

def VERSION_NOT_SERVED_KIND : Text := "version-not-served".toList

def strip_return (line : Text) : Text := if line.getLast? = some '\r' then line.dropLast else line

/-- `str::lines`: a last line that is empty is not one, and keeps its carriage return if it
is not. -/
def lines (text : Text) : List Text :=
  let parts := text.splitOn '\n'
  parts.dropLast.map strip_return ++ (parts.getLast?.filter fun line => !line.isEmpty).toList

/-- `u16::from_str`. -/
def parse_u16 (text : Text) : Option ℕ :=
  (match text with
    | '+' :: digits => parse_digits digits
    | digits => parse_digits digits).filter fun n => decide (n < 2 ^ 16)

def trailer_status (trailers : Text) : Option ℕ :=
  (lines trailers).findSome? fun line =>
    (strip_prefix_of line "grpc-status:".toList).bind fun value => parse_u16 (trim value)

def trailer_kind (trailers : Text) : Option Text :=
  (lines trailers).findSome? fun line =>
    (strip_prefix_of line (ERROR_KIND_METADATA ++ [':'])).map trim

/-! ## The decoder -/

/-- `usize` has 32 bits. -/
def usize_add (overflow : Word.Overflow) (a b : ℕ) : Option ℕ := Word.add 32 overflow a b

structure Decoding where
  offset : ℕ
  payload : Option (List UInt8)
  status : Option ℕ
  kind : Option Text
deriving DecidableEq

def Decoding.start : Decoding := ⟨0, none, none, none⟩

def Decoding.read (self : Decoding) (flags : UInt8) (frame : List UInt8) : Decoding :=
  if flags &&& 0x80 = 0 then { self with payload := some frame }
  else
    match from_utf8 frame with
    | none => self
    | some trailers =>
      { self with status := trailer_status trailers, kind := trailer_kind trailers }

inductive Round where
  /-- The condition of the loop does not hold. -/
  | exit
  /-- A frame is longer than what is left: the function returns. -/
  | truncated
  | next (decoding : Decoding)
deriving DecidableEq

def round (overflow : Word.Overflow) (bytes : List UInt8) (decoding : Decoding) : Option Round := do
  let header_end ← usize_add overflow decoding.offset 5
  if ¬ header_end ≤ bytes.length then some .exit
  else do
    let flags ← bytes[decoding.offset]?
    let length_start ← usize_add overflow decoding.offset 1
    let header ← Word.slice bytes length_start header_end
    let length := Word.from_be_bytes header
    let frame_end ← usize_add overflow header_end length
    if frame_end > bytes.length then some .truncated
    else do
      let frame ← Word.slice bytes header_end frame_end
      some (.next { decoding.read flags frame with offset := frame_end })

inductive Ending where
  | panicked
  | truncated
  | finished (decoding : Decoding)
deriving DecidableEq

def run (overflow : Word.Overflow) (bytes : List UInt8) : ℕ → Decoding → Option Ending
  | 0, _ => none
  | rounds + 1, decoding =>
    match round overflow bytes decoding with
    | none => some .panicked
    | some .exit => some (.finished decoding)
    | some .truncated => some .truncated
    | some (.next decoding) => run overflow bytes rounds decoding

section Decode

variable {R : Type} (decode : List UInt8 → Option R)

def outcome (decoding : Decoding) (header_kind : Option Text) (status : ℕ) :
    Except ClientError R :=
  if status = 0 then
    match decoding.payload with
    | none => .error (map_rpc_status .Other)
    | some payload =>
      match decode payload with
      | none => .error (map_rpc_status .Other)
      | some message => .ok message
  else if decoding.kind.or header_kind = some VERSION_NOT_SERVED_KIND then
    .error (map_rpc_status .VersionNotServed)
  else .error (map_rpc_status (grpc_status_code status))

def answer (header_status : Option ℕ) (header_kind : Option Text) :
    Ending → Option (Except ClientError R × Option ℕ)
  | .panicked => none
  | .truncated => some (.error (map_rpc_status .Other), none)
  | .finished decoding =>
    match decoding.status.or header_status with
    | none => some (.error (map_rpc_status .Other), none)
    | some status => some (outcome decode decoding header_kind status, some status)

/-- The decoded answer and the status it carried; outside, `none` when the loop takes more
than the given number of rounds, and inside it a panic. -/
def decode_grpc_web_answer (overflow : Word.Overflow) (rounds : ℕ) (bytes : List UInt8)
    (header_status : Option ℕ) (header_kind : Option Text) :
    Option (Option (Except ClientError R × Option ℕ)) :=
  (run overflow bytes rounds .start).map (answer decode header_status header_kind)

end Decode

/-! ## The frames of an answer -/

def declared (bytes : List UInt8) (position : ℕ) : ℕ :=
  Word.from_be_bytes ((bytes.drop (position + 1)).take 4)

def behind (bytes : List UInt8) (position : ℕ) : ℕ := position + 5 + declared bytes position

/-- The positions at which frames start, from one of them on: each frame that is whole is
followed by the next. -/
inductive Frames (bytes : List UInt8) : ℕ → ℕ → Prop
  | here (position : ℕ) : Frames bytes position position
  | next {position later : ℕ} : behind bytes position ≤ bytes.length →
      Frames bytes (behind bytes position) later → Frames bytes position later

/-- The sums at a frame's start are words: with the header, and with the declared length when
the header is there. -/
def Fits (bytes : List UInt8) (position : ℕ) : Prop :=
  position + 5 < 2 ^ 32 ∧ (position + 5 ≤ bytes.length → behind bytes position < 2 ^ 32)

def FramesFit (bytes : List UInt8) (position : ℕ) : Prop :=
  ∀ later, Frames bytes position later → Fits bytes later

theorem framesFit_iff {bytes : List UInt8} {position : ℕ} :
    FramesFit bytes position ↔ Fits bytes position ∧
      (behind bytes position ≤ bytes.length → FramesFit bytes (behind bytes position)) := by
  constructor
  · intro h
    exact ⟨h _ (.here _), fun hwho later hlat => h later (.next hwho hlat)⟩
  · rintro ⟨hfit, hnex⟩ later hlat
    cases hlat with
    | here => exact hfit
    | next hwho hlat => exact hnex hwho later hlat

theorem declared_lt (bytes : List UInt8) (position : ℕ) : declared bytes position < 2 ^ 32 := by
  refine (from_be_bytes_lt _).trans_le ?_
  have hlength : ((bytes.drop (position + 1)).take 4).length ≤ 4 := length_take_le _ _
  calc 256 ^ ((bytes.drop (position + 1)).take 4).length ≤ 256 ^ 4 :=
        Nat.pow_le_pow_right (by decide) hlength
    _ = 2 ^ 32 := by decide

section Rounds

variable {overflow : Word.Overflow} {bytes : List UInt8} {decoding : Decoding}

def Decoding.after (self : Decoding) (bytes : List UInt8) : Decoding :=
  { self.read (bytes.getD self.offset 0)
      ((bytes.drop (self.offset + 5)).take (declared bytes self.offset))
    with offset := behind bytes self.offset }

theorem round_exit (hfit : decoding.offset + 5 < 2 ^ 32)
    (hend : bytes.length < decoding.offset + 5) : round overflow bytes decoding = some .exit := by
  rw [round, usize_add, add_of_lt hfit, Option.bind_eq_bind, Option.bind_some,
    if_pos (Nat.not_le.mpr hend)]

section Short

variable (hlength : bytes.length < 2 ^ 32)
include hlength

theorem round_header
    (hhea : decoding.offset + 5 ≤ bytes.length) :
    round overflow bytes decoding =
      (usize_add overflow (decoding.offset + 5) (declared bytes decoding.offset)).bind
        fun frame_end =>
          if frame_end > bytes.length then some .truncated
          else (Word.slice bytes (decoding.offset + 5) frame_end).bind fun frame =>
            some (.next
              { decoding.read (bytes.getD decoding.offset 0) frame with offset := frame_end }) := by
  have hfla : bytes[decoding.offset]? = some (bytes.getD decoding.offset 0) := by
    rw [getD_eq_getElem?_getD, getElem?_eq_getElem (by omega), Option.getD_some]
  have hsli : Word.slice bytes (decoding.offset + 1) (decoding.offset + 5)
      = some ((bytes.drop (decoding.offset + 1)).take 4) := by
    rw [slice_of_le (by omega) hhea]
    congr 2
    omega
  simp only [round, usize_add, Option.bind_eq_bind]
  rw [add_of_lt (by omega), Option.bind_some, if_neg (by omega), hfla, Option.bind_some,
    add_of_lt (by omega), Option.bind_some, hsli, Option.bind_some]
  rfl

theorem round_next
    (hwho : behind bytes decoding.offset ≤ bytes.length) :
    round overflow bytes decoding = some (.next (decoding.after bytes)) := by
  have hbeh : behind bytes decoding.offset = decoding.offset + 5 + _ := rfl
  rw [round_header hlength (by omega), usize_add, add_of_lt (by omega), Option.bind_some,
    if_neg (by omega), slice_of_le (by omega) (by omega), Option.bind_some,
    Nat.add_sub_cancel_left]
  rfl

theorem round_truncated
    (hhea : decoding.offset + 5 ≤ bytes.length)
    (hfit : behind bytes decoding.offset < 2 ^ 32)
    (hlon : bytes.length < behind bytes decoding.offset) :
    round overflow bytes decoding = some .truncated := by
  have hbeh : behind bytes decoding.offset = decoding.offset + 5 + _ := rfl
  rw [round_header hlength hhea, usize_add, add_of_lt (by omega), Option.bind_some,
    if_pos (by omega)]

/-- **A length that does not fit panics**, in every build: where the sum wraps around, it is
below the offset, and the slice ends before it starts. -/
theorem round_panics_at_length
    (hhea : decoding.offset + 5 ≤ bytes.length)
    (hfit : 2 ^ 32 ≤ behind bytes decoding.offset) : round overflow bytes decoding = none := by
  rw [round_header hlength hhea]
  cases hadd : usize_add overflow (decoding.offset + 5) (declared bytes decoding.offset) with
  | none => rfl
  | some frame_end =>
    have hwra := lt_of_wrapped (by omega) (declared_lt bytes _) hfit hadd
    rw [Option.bind_some, if_neg (by omega), slice_eq_none hwra]
    rfl

theorem round_panics_at_header
    (hoff : decoding.offset ≤ bytes.length) (hfit : 2 ^ 32 ≤ decoding.offset + 5) :
    round overflow bytes decoding = none := by
  simp only [round, usize_add, Option.bind_eq_bind]
  cases hadd : Word.add 32 overflow decoding.offset 5 with
  | none => rfl
  | some header_end =>
    have hwra := lt_of_wrapped (by omega) (by decide) hfit hadd
    rw [Option.bind_some, if_neg (by omega)]
    cases hfla : bytes[decoding.offset]? with
    | none => rfl
    | some flags =>
      obtain ⟨hins, -⟩ := List.getElem?_eq_some_iff.mp hfla
      rw [Option.bind_some, add_of_lt (by omega), Option.bind_some,
        slice_eq_none (by omega)]
      rfl

end Short

variable {rounds : ℕ}

theorem run_next {later : Decoding} (h : round overflow bytes decoding = some (.next later)) :
    run overflow bytes (rounds + 1) decoding = run overflow bytes rounds later := by
  rw [run, h]

/-- **The loop ends**, a round for every five bytes that are left and one more, and it panics
exactly when a sum on its way is not a word. -/
theorem run_ends (hlength : bytes.length < 2 ^ 32) (hoff : decoding.offset ≤ bytes.length)
    (hrou : (bytes.length - decoding.offset) / 5 + 1 ≤ rounds) :
    ∃ ending, run overflow bytes rounds decoding = some ending ∧
      (ending ≠ .panicked ↔ FramesFit bytes decoding.offset) := by
  induction rounds generalizing decoding with
  | zero => exact absurd hrou (by omega)
  | succ rounds ih =>
    have hbeh : behind bytes decoding.offset = decoding.offset + 5 + _ := rfl
    rw [framesFit_iff]
    by_cases hhea : decoding.offset + 5 < 2 ^ 32
    · by_cases hhead : decoding.offset + 5 ≤ bytes.length
      · by_cases hfit : behind bytes decoding.offset < 2 ^ 32
        · have hher : Fits bytes decoding.offset := ⟨hhea, fun _ => hfit⟩
          by_cases hwho : behind bytes decoding.offset ≤ bytes.length
          · have haft : (decoding.after bytes).offset = behind bytes decoding.offset := rfl
            obtain ⟨ending, hend, hiff⟩ := ih (haft.trans_le hwho) (by omega)
            refine ⟨ending, (run_next (round_next hlength hwho)).trans hend, hiff.trans ?_⟩
            exact ⟨fun h => ⟨hher, fun _ => h⟩, fun h => h.2 hwho⟩
          · refine ⟨.truncated, ?_, iff_of_true (by decide) ⟨hher, fun h => absurd h hwho⟩⟩
            rw [run, round_truncated hlength hhead hfit (by omega)]
        · refine ⟨.panicked, ?_, iff_of_false (fun h => h rfl) fun h => hfit (h.1.2 hhead)⟩
          rw [run, round_panics_at_length hlength hhead (by omega)]
      · refine ⟨.finished decoding, ?_, iff_of_true (by simp)
          ⟨⟨hhea, fun h => absurd h hhead⟩, fun h => absurd h (by omega)⟩⟩
        rw [run, round_exit hhea (by omega)]
    · refine ⟨.panicked, ?_, iff_of_false (fun h => h rfl) fun h => hhea h.1.1⟩
      rw [run, round_panics_at_header hlength hoff (by omega)]

end Rounds

/-! ## Framing -/

def framed (flags : UInt8) (payload : List UInt8) : List UInt8 :=
  flags :: (Word.to_be_bytes 4 payload.length ++ payload)

/-- The body of a call (`grpc_unary_call`): one frame, when its length fits the field. -/
def frame_message (encoded : List UInt8) : Except ClientError (List UInt8) :=
  if encoded.length < 2 ^ 32 then .ok (framed 0 encoded) else .error browser_error

@[simp] theorem length_framed (flags : UInt8) (payload : List UInt8) :
    (framed flags payload).length = 5 + payload.length := by
  rw [framed, length_cons, length_append, length_to_be_bytes]
  omega

section Framed

variable {before payload rest bytes : List UInt8} {flags : UInt8} {decoding : Decoding}
  (hbytes : bytes = before ++ (framed flags payload ++ rest))

include hbytes

theorem declared_framed (hfit : payload.length < 2 ^ 32) :
    declared bytes before.length = payload.length := by
  have hspl : bytes = (before ++ [flags]) ++ Word.to_be_bytes 4 payload.length
      ++ (payload ++ rest) := by
    rw [hbytes, framed]
    simp only [append_assoc, cons_append, nil_append]
  have hmid := take_drop_middle (before ++ [flags]) (Word.to_be_bytes 4 payload.length)
    (payload ++ rest)
  rw [← hspl, length_append, length_singleton, length_to_be_bytes] at hmid
  rw [declared, hmid, from_be_bytes_to_be_bytes hfit]

theorem after_framed (hfit : payload.length < 2 ^ 32) (hoff : decoding.offset = before.length) :
    decoding.after bytes =
      { decoding.read flags payload with offset := before.length + 5 + payload.length } := by
  have hfla : bytes.getD before.length 0 = flags := by
    rw [hbytes, framed]
    simp
  have hspl : bytes = (before ++ (flags :: Word.to_be_bytes 4 payload.length)) ++ payload
      ++ rest := by
    rw [hbytes, framed]
    simp only [append_assoc, cons_append]
  have hpay := take_drop_middle (before ++ (flags :: Word.to_be_bytes 4 payload.length))
    payload rest
  rw [← hspl, length_append, length_cons, length_to_be_bytes] at hpay
  rw [Decoding.after, behind, hoff, declared_framed hbytes hfit, hfla, hpay]

end Framed

def ok_trailers : Text := "grpc-status:0\r\n".toList

def ok_answer (m : List UInt8) : List UInt8 := framed 0 m ++ framed 0x80 (as_bytes ok_trailers)

theorem read_message (decoding : Decoding) (m : List UInt8) :
    decoding.read 0 m = { decoding with payload := some m } := if_pos (by decide)

theorem read_ok_trailers (decoding : Decoding) :
    decoding.read 0x80 (as_bytes ok_trailers)
      = { decoding with status := some 0, kind := none } := by
  have hsta : trailer_status ok_trailers = some 0 := by decide +kernel
  have hkin : trailer_kind ok_trailers = none := by decide +kernel
  rw [Decoding.read, if_neg (by decide), from_utf8_as_bytes]
  simp only [hsta, hkin]

theorem length_ok_trailers : (as_bytes ok_trailers).length = 15 := by
  decide +kernel

theorem length_ok_answer (m : List UInt8) : (ok_answer m).length = m.length + 25 := by
  rw [ok_answer, length_append, length_framed, length_framed, length_ok_trailers]
  omega

theorem ok_answer_frames (m : List UInt8) :
    ok_answer m = framed 0 m ++ (framed 0x80 (as_bytes ok_trailers) ++ []) := by
  rw [append_nil]
  rfl

theorem behind_trailers (m : List UInt8) :
    behind (ok_answer m) (m.length + 5) = (ok_answer m).length := by
  have hbytes := ok_answer_frames m
  have htra := length_ok_trailers
  have hdec := declared_framed hbytes (by rw [htra]; decide)
  rw [length_framed, Nat.add_comm, htra] at hdec
  rw [behind, hdec, length_ok_answer]

theorem after_trailers (m : List UInt8) :
    Decoding.after ⟨m.length + 5, some m, none, none⟩ (ok_answer m)
      = ⟨(ok_answer m).length, some m, some 0, none⟩ := by
  have hbytes := ok_answer_frames m
  have htra := length_ok_trailers
  rw [after_framed hbytes (by rw [htra]; decide) (by rw [length_framed, Nat.add_comm]),
    read_ok_trailers, length_framed, htra, length_ok_answer]
  simp only [Decoding.mk.injEq, and_true]
  omega

section OkAnswer

variable {m : List UInt8} (hlength : (ok_answer m).length < 2 ^ 32)

include hlength

theorem behind_message : behind (ok_answer m) 0 = m.length + 5 := by
  have hbytes : ok_answer m = [] ++ (framed 0 m ++ framed 0x80 (as_bytes ok_trailers)) := rfl
  have hdec := declared_framed hbytes (by rw [length_ok_answer] at hlength; omega)
  rw [length_nil] at hdec
  rw [behind, hdec]
  omega

theorem after_message :
    Decoding.start.after (ok_answer m) = ⟨m.length + 5, some m, none, none⟩ := by
  have hbytes : ok_answer m = [] ++ (framed 0 m ++ framed 0x80 (as_bytes ok_trailers)) := rfl
  rw [after_framed hbytes (by rw [length_ok_answer] at hlength; omega) rfl, read_message,
    length_nil, Nat.zero_add, Nat.add_comm]
  rfl

theorem framesFit_ok_answer : FramesFit (ok_answer m) 0 ↔ (ok_answer m).length + 5 < 2 ^ 32 := by
  have hlen := length_ok_answer m
  have hbey : ¬ behind (ok_answer m) (ok_answer m).length ≤ (ok_answer m).length := by
    rw [behind]
    omega
  rw [framesFit_iff, behind_message hlength, framesFit_iff, behind_trailers m, framesFit_iff]
  simp only [Fits, behind_message hlength, behind_trailers m, hbey, false_imp_iff, and_true]
  omega

theorem run_ok_answer (hfit : (ok_answer m).length + 5 < 2 ^ 32) (overflow : Word.Overflow)
    (rounds : ℕ) :
    run overflow (ok_answer m) (rounds + 3) .start
      = some (.finished ⟨(ok_answer m).length, some m, some 0, none⟩) := by
  have hlen := length_ok_answer m
  have hfir : behind (ok_answer m) Decoding.start.offset ≤ (ok_answer m).length := by
    rw [show Decoding.start.offset = 0 from rfl, behind_message hlength]
    omega
  have hsec : behind (ok_answer m) (⟨m.length + 5, some m, none, none⟩ : Decoding).offset
      ≤ (ok_answer m).length := (behind_trailers m).le
  rw [run_next (round_next hlength hfir), after_message hlength,
    run_next (round_next hlength hsec), after_trailers m, run,
    round_exit hfit (by show (ok_answer m).length < (ok_answer m).length + 5; omega)]

end OkAnswer

def decoded {R : Type} (decode : List UInt8 → Option R) (m : List UInt8) : Except ClientError R :=
  match decode m with
  | none => .error (map_rpc_status .Other)
  | some message => .ok message

theorem answer_isSome {R : Type} (decode : List UInt8 → Option R) (header_status : Option ℕ)
    (header_kind : Option Text) {ending : Ending} :
    (answer decode header_status header_kind ending).isSome = true ↔ ending ≠ .panicked := by
  cases ending with
  | panicked => simp [answer]
  | truncated => simp [answer]
  | finished decoding =>
    refine iff_of_true ?_ (by simp)
    rw [answer]
    cases decoding.status.or header_status <;> rfl

/-- **Where the decoder is safe and inverts framing.** On every byte string that a 32-bit target can
hold, the loop ends within a round for every five bytes and one more, in either build. -/
theorem decodes_iff_fits {R : Type} (decode : List UInt8 → Option R) (overflow : Word.Overflow)
    (bytes : List UInt8) (hlength : bytes.length < 2 ^ 32) (header_status : Option ℕ)
    (header_kind : Option Text) (rounds : ℕ) (hrounds : bytes.length / 5 + 1 ≤ rounds) :
    (∃ returned,
      decode_grpc_web_answer decode overflow rounds bytes header_status header_kind
        = some returned ∧
      ((returned.isSome = true ∧
        ∀ m, bytes = ok_answer m → returned = some (decoded decode m, some 0)) ↔
          FramesFit bytes 0)) ∧
    ∀ m, bytes = ok_answer m → bytes.length + 5 < 2 ^ 32 → FramesFit bytes 0 := by
  have hends : ∃ ending, run overflow bytes rounds .start = some ending ∧
      (ending ≠ .panicked ↔ FramesFit bytes 0) := run_ends hlength (Nat.zero_le _) hrounds
  obtain ⟨ending, hend, hiff⟩ := hends
  refine ⟨⟨answer decode header_status header_kind ending, ?_, ?_, ?_⟩, ?_⟩
  · rw [decode_grpc_web_answer, hend, Option.map_some]
  · exact fun h => hiff.mp ((answer_isSome _ _ _).mp h.1)
  · refine fun hfit => ⟨(answer_isSome _ _ _).mpr (hiff.mpr hfit), ?_⟩
    rintro m rfl
    have hlen := length_ok_answer m
    obtain ⟨more, rfl⟩ : ∃ more, rounds = more + 3 := ⟨rounds - 3, by omega⟩
    rw [run_ok_answer hlength ((framesFit_ok_answer hlength).mp hfit)] at hend
    rw [← Option.some.inj hend]
    rfl
  · rintro m rfl hroo
    exact (framesFit_ok_answer hlength).mpr hroo

/-- A message of one byte, framed. -/
theorem one_byte_answer_decodes :
    FramesFit (ok_answer [7]) 0 ∧
      decode_grpc_web_answer some .wraps 6 (ok_answer [7]) none none
        = some (some (.ok [7], some 0)) := by
  have hlen : (ok_answer [7]).length = 26 := length_ok_answer [7]
  obtain ⟨⟨returned, hret, hiff⟩, hfra⟩ := decodes_iff_fits (some : List UInt8 → _) .wraps
    (ok_answer [7]) (by rw [hlen]; decide) none none 6 (by rw [hlen])
  have hfit := hfra [7] rfl (by rw [hlen]; decide)
  exact ⟨hfit, hret.trans (congrArg some ((hiff.mpr hfit).2 [7] rfl))⟩

def wrapping_header : List UInt8 := [0, 0xff, 0xff, 0xff, 0xfb]

/-- **Five bytes from a service that panic the browser's decoder**, in either build: the
declared length takes the offset back to 0. -/
theorem wrapping_header_panics :
    decode_grpc_web_answer (some : List UInt8 → Option (List UInt8)) .wraps 2 wrapping_header none
        none = some none ∧
      decode_grpc_web_answer (some : List UInt8 → Option (List UInt8)) .panics 2 wrapping_header
        none none = some none ∧
      behind wrapping_header 0 = 2 ^ 32 := by
  decide

end SovereignConfig.Web.Transport
