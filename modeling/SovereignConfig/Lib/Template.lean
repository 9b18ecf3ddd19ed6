/-
Texts with holes. Two fillings with one text are equal when the values have the same lengths, or
when a delimiter stands between any two holes and the values of a hole have it equally often.
-/
import SovereignConfig.Lib.Segments

namespace SovereignConfig.Lib

open List

variable {α ι : Type}

inductive Piece (α ι : Type) where
  | literal (text : List α)
  | hole (name : ι)
deriving DecidableEq

def Piece.fill (value : ι → List α) : Piece α ι → List α
  | .literal text => text
  | .hole name => value name

def fill (value : ι → List α) (pieces : List (Piece α ι)) : List α :=
  pieces.flatMap (Piece.fill value)

variable {value value' : ι → List α}

@[simp] theorem fill_nil : fill value ([] : List (Piece α ι)) = [] := rfl

@[simp] theorem fill_literal (text : List α) (pieces : List (Piece α ι)) :
    fill value (.literal text :: pieces) = text ++ fill value pieces := rfl

@[simp] theorem fill_hole (name : ι) (pieces : List (Piece α ι)) :
    fill value (.hole name :: pieces) = value name ++ fill value pieces := rfl

variable {pieces : List (Piece α ι)} {name special : ι} {w : List (α ⊕ ι)}

theorem foldl_fill_congr {σ : Type} {step : σ → α → σ}
    (h : ∀ name, .hole name ∈ pieces →
      ∀ s, (value name).foldl step s = (value' name).foldl step s) (s : σ) :
    (fill value pieces).foldl step s = (fill value' pieces).foldl step s := by
  induction pieces generalizing s with
  | nil => rfl
  | cons piece pieces ih =>
    specialize ih fun name hnam => h name (mem_cons_of_mem _ hnam)
    cases piece with
    | literal text => rw [fill_literal, fill_literal, foldl_append, foldl_append, ih]
    | hole name =>
      rw [fill_hole, fill_hole, foldl_append, foldl_append,
        h name mem_cons_self, ih]

def AgreeOn (pieces : List (Piece α ι)) (value value' : ι → List α) : Prop :=
  ∀ name, .hole name ∈ pieces → value name = value' name

theorem agreeOn_literal {text : List α} :
    AgreeOn (.literal text :: pieces) value value' ↔ AgreeOn pieces value value' := by
  simp [AgreeOn]

theorem agreeOn_hole :
    AgreeOn (.hole name :: pieces) value value' ↔
      value name = value' name ∧ AgreeOn pieces value value' := by
  simp [AgreeOn]

theorem fill_inj_of_length
    (hlength : ∀ name, .hole name ∈ pieces → (value name).length = (value' name).length)
    (h : fill value pieces = fill value' pieces) : AgreeOn pieces value value' := by
  have hpie : pieces.map (Piece.fill value) = pieces.map (Piece.fill value') := by
    refine eq_iff_flatten_eq.mpr ⟨h, ?_⟩
    rw [map_map, map_map]
    refine map_congr_left fun piece hpiec => ?_
    cases piece with
    | literal text => rfl
    | hole name => exact hlength name hpiec
  intro name hnam
  exact map_inj_left.mp hpie _ hnam

def word (pieces : List (Piece α ι)) : List (α ⊕ ι) :=
  pieces.flatMap fun piece =>
    match piece with
    | .literal text => text.map Sum.inl
    | .hole name => [.inr name]

def write (value : ι → List α) (w : List (α ⊕ ι)) : List α :=
  w.flatMap (Sum.elim (fun c => [c]) value)

theorem write_word (pieces : List (Piece α ι)) : write value (word pieces) = fill value pieces := by
  induction pieces with
  | nil => rfl
  | cons piece pieces ih =>
    have htex : ∀ text : List α, write value (text.map Sum.inl) = text := by
      intro text
      simp [write, flatMap_map]
    cases piece with
    | literal text =>
      rw [fill_literal, ← ih]
      nth_rewrite 2 [← htex text]
      exact flatMap_append
    | hole name =>
      rw [fill_hole, ← ih]
      rfl

theorem mem_write {c : α} :
    c ∈ write value w ↔ .inl c ∈ w ∨ ∃ name, .inr name ∈ w ∧ c ∈ value name := by
  rw [write, mem_flatMap]
  constructor
  · rintro ⟨a | name, ha, hc⟩
    · obtain rfl := mem_singleton.mp hc
      exact Or.inl ha
    · exact Or.inr ⟨name, ha, hc⟩
  · rintro (hc | ⟨name, hnam, hc⟩)
    · exact ⟨_, hc, mem_singleton_self c⟩
    · exact ⟨_, hnam, hc⟩

theorem write_eq_nil (hval : ∀ name, value name ≠ []) : write value w = [] ↔ w = [] := by
  rw [write, flatMap_eq_nil_iff, eq_nil_iff_forall_not_mem]
  refine forall₂_congr fun a _ => iff_false_intro ?_
  cases a with
  | inl c => exact cons_ne_nil c []
  | inr name => exact hval name

variable [DecidableEq α] (d : α)

/-- No two holes stand between two delimiters; `filled` says that a hole has been passed
since the last one. -/
def apart_from (filled : Bool) : List (Piece α ι) → Bool
  | [] => true
  | .literal text :: pieces => apart_from (filled && !decide (d ∈ text)) pieces
  | .hole _ :: pieces => !filled && apart_from true pieces

def apart (pieces : List (Piece α ι)) : Bool := apart_from d false pieces

variable {d}

theorem cut_at_count {a b x y : List α} (hcou : a.count d = b.count d)
    (h : a ++ d :: x = b ++ d :: y) : a = b ∧ x = y := by
  induction a generalizing b with
  | nil =>
    cases b with
    | nil => exact ⟨rfl, (List.cons.inj h).2⟩
    | cons c b =>
      -- The head of `b` would be a delimiter that the empty text does not have.
      obtain ⟨rfl, -⟩ := List.cons.inj h
      simp at hcou
  | cons c a ih =>
    cases b with
    | nil =>
      obtain ⟨rfl, -⟩ := List.cons.inj h
      simp at hcou
    | cons c' b =>
      obtain ⟨rfl, htai⟩ := List.cons.inj h
      have hcou' : a.count d = b.count d := by
        simp only [count_cons] at hcou
        omega
      obtain ⟨rfl, rfl⟩ := ih hcou' htai
      exact ⟨rfl, rfl⟩

/-- The invariant of the scan: behind texts `u` and `u'` that have the delimiter equally
often, the rest of the template shows where they end. -/
theorem fill_inj_behind
    (hcou : ∀ name, .hole name ∈ pieces → (value name).count d = (value' name).count d) :
    (apart_from d false pieces = true → fill value pieces = fill value' pieces →
      AgreeOn pieces value value') ∧
    ∀ u u' : List α, u.count d = u'.count d → apart_from d true pieces = true →
      u ++ fill value pieces = u' ++ fill value' pieces → u = u' ∧ AgreeOn pieces value value' := by
  induction pieces with
  | nil =>
    refine ⟨fun _ _ => by simp [AgreeOn], fun u u' _ _ h => ?_⟩
    exact ⟨by simpa using h, by simp [AgreeOn]⟩
  | cons piece pieces ih =>
    obtain ⟨ih_closed, ih_filled⟩ := ih fun name hnam => hcou name (mem_cons_of_mem _ hnam)
    cases piece with
    | literal text =>
      simp only [agreeOn_literal, fill_literal, apart_from, Bool.false_and, Bool.true_and]
      refine ⟨fun hapa h => ih_closed hapa (append_cancel_left h), ?_⟩
      intro u u' hu hapa h
      by_cases htex : d ∈ text
      · -- The first delimiter of the literal ends both texts.
        obtain ⟨s, t, rfl⟩ := append_of_mem htex
        have hcut : (u ++ s) ++ d :: (t ++ fill value pieces)
            = (u' ++ s) ++ d :: (t ++ fill value' pieces) := by
          simpa [append_assoc] using h
        obtain ⟨hlef, hrig⟩ := cut_at_count (by simp [count_append, hu]) hcut
        rw [decide_eq_true htex, Bool.not_true] at hapa
        exact ⟨append_cancel_right hlef,
          ih_closed hapa (append_cancel_left hrig)⟩
      · rw [decide_eq_false htex, Bool.not_false] at hapa
        obtain ⟨heq, hagr⟩ := ih_filled (u ++ text) (u' ++ text)
          (by simp [count_append, hu]) hapa (by simpa [append_assoc] using h)
        exact ⟨append_cancel_right heq, hagr⟩
    | hole name =>
      simp only [agreeOn_hole, fill_hole, apart_from, Bool.not_false, Bool.not_true,
        Bool.true_and, Bool.false_and, Bool.false_eq_true, false_implies, implies_true, and_true]
      intro hapa h
      exact ih_filled _ _ (hcou name mem_cons_self) hapa h

theorem fill_inj_of_apart (hapa : apart d pieces = true)
    (hcou : ∀ name, .hole name ∈ pieces → (value name).count d = (value' name).count d)
    (h : fill value pieces = fill value' pieces) : AgreeOn pieces value value' :=
  (fill_inj_behind hcou).1 hapa h

variable [DecidableEq ι]

theorem count_fill (hoth : ∀ name, .hole name ∈ pieces → name ≠ special → d ∉ value name) :
    (fill value pieces).count d = (fill (fun _ => []) pieces).count d
      + pieces.count (.hole special) * (value special).count d := by
  induction pieces with
  | nil => simp
  | cons piece pieces ih =>
    specialize ih fun name hnam => hoth name (mem_cons_of_mem _ hnam)
    cases piece with
    | literal text =>
      rw [fill_literal, fill_literal, count_append, count_append, ih,
        count_cons_of_ne (by simp)]
      omega
    | hole name =>
      rw [fill_hole, fill_hole, nil_append, count_append, ih]
      by_cases hnam : name = special
      · subst hnam
        rw [count_cons_self, Nat.add_mul, Nat.one_mul]
        omega
      · rw [count_cons_of_ne (by simpa using hnam),
          count_eq_zero_of_not_mem (hoth name mem_cons_self hnam), Nat.zero_add]

theorem count_eq_of_fill (hoth : ∀ name, .hole name ∈ pieces → name ≠ special → d ∉ value name)
    (hoth' : ∀ name, .hole name ∈ pieces → name ≠ special → d ∉ value' name)
    (h : fill value pieces = fill value' pieces) (hnam : .hole name ∈ pieces) :
    (value name).count d = (value' name).count d := by
  by_cases hspe : name = special
  · subst hspe
    have hpos : 0 < pieces.count (.hole name) := count_pos_iff.mpr hnam
    have hcou := congrArg (List.count d) h
    rw [count_fill hoth, count_fill hoth'] at hcou
    exact Nat.eq_of_mul_eq_mul_left hpos (Nat.add_left_cancel hcou)
  · rw [count_eq_zero_of_not_mem (hoth name hnam hspe),
      count_eq_zero_of_not_mem (hoth' name hnam hspe)]

section Parts

omit [DecidableEq ι]

def parts (d : α) (pieces : List (Piece α ι)) : List (List (α ⊕ ι)) :=
  (word pieces).splitOnP (Sum.elim (· == d) fun _ => false)

variable {pieces : List (Piece α ι)}

theorem not_mem_part {w : List (α ⊕ ι)} (hw : w ∈ parts d pieces) : .inl d ∉ w := by
  intro hd
  have hfal := false_of_mem_splitOnP hw hd
  simp at hfal

theorem splitOn_write (w : List (α ⊕ ι)) :
    (write value w).splitOn d
      = (w.splitOnP (Sum.elim (· == d) fun _ => false)).flatMap
          fun part => (write value part).splitOn d := by
  induction w with
  | nil => simp [write]
  | cons a w ih =>
    rw [splitOnP_cons_eq_if_modifyHead]
    split
    · rename_i ha
      cases a with
      | inr name => simp at ha
      | inl c =>
        obtain rfl : c = d := eq_of_beq ha
        rw [flatMap_cons, ← ih]
        have hcon : write value (Sum.inl c :: w) = c :: write value w := rfl
        rw [hcon, splitOn_cons_eq_if_modifyHead, if_pos (beq_self_eq_true c)]
        rfl
    · cases hcut : w.splitOnP (Sum.elim (· == d) fun _ => false) with
      | nil => exact absurd hcut (splitOnP_ne_nil _ _)
      | cons part rest =>
        rw [hcut, flatMap_cons] at ih
        exact splitOn_append_of_eq ih _

/-- **A filled template, cut at a delimiter**, is the template's own parts, each filled and
cut where a value brings the delimiter. -/
theorem splitOn_fill (pieces : List (Piece α ι)) :
    (fill value pieces).splitOn d
      = (parts d pieces).flatMap fun part => (write value part).splitOn d := by
  rw [← write_word, splitOn_write]
  rfl

theorem splitOn_fill_of_free (hval : ∀ name, d ∉ value name) :
    (fill value pieces).splitOn d = (parts d pieces).map (write value) := by
  rw [splitOn_fill, map_eq_flatMap]
  refine flatMap_congr fun part hpar => splitOn_of_not_mem ?_
  rw [mem_write]
  rintro (hd | ⟨name, -, hd⟩)
  · exact not_mem_part hpar hd
  · exact hval name hd

theorem literal_parts_prefix {ws : List (List (α ⊕ ι))} (hfre : ∀ w ∈ ws, .inl d ∉ w) :
    (ws.takeWhile fun w => w.all Sum.isLeft).map (write fun _ => [])
      <+: ws.flatMap fun part => (write value part).splitOn d := by
  have hlit : ∀ w ∈ ws.takeWhile (fun w => w.all Sum.isLeft),
      (write value w).splitOn d = [write (fun _ => []) w] := by
    intro w hw
    have hlef := all_eq_true.mp (all_eq_true.mp all_takeWhile w hw)
    have hwri : write value w = write (fun _ => []) w := by
      refine flatMap_congr fun a ha => ?_
      cases a with
      | inl c => rfl
      | inr name => exact absurd (hlef _ ha) (by simp)
    rw [hwri]
    refine splitOn_of_not_mem fun hd => ?_
    rcases mem_write.mp hd with hd | ⟨name, -, hd⟩
    · exact hfre w (( takeWhile_prefix _).subset hw) hd
    · exact absurd hd not_mem_nil
  refine ⟨(ws.dropWhile fun w => w.all Sum.isLeft).flatMap
    fun part => (write value part).splitOn d, ?_⟩
  rw [map_eq_flatMap, ← flatMap_congr hlit, ← flatMap_append,
    takeWhile_append_dropWhile]

end Parts

end SovereignConfig.Lib
