/-
Texts made of segments, each behind its delimiter. Questions about prefixes and last delimiters
become questions about lists.
-/
import Mathlib

namespace SovereignConfig.Lib

open List Function

variable {α : Type} [DecidableEq α] (d : α)

def render (ss : List (List α)) : List α := ss.flatMap (fun s => d :: s)

def Free (ss : List (List α)) : Prop := ∀ s ∈ ss, d ∉ s

def rsplit_once (t : List α) : Option (List α × List α) :=
  if d ∈ t then
    some (((t.reverse.dropWhile (· ≠ d)).tail).reverse, (t.reverse.takeWhile (· ≠ d)).reverse)
  else none

variable {d}

section Render

omit [DecidableEq α]

@[simp] theorem render_nil : render d ([] : List (List α)) = [] := rfl

@[simp] theorem render_cons (s : List α) (ss : List (List α)) :
    render d (s :: ss) = d :: (s ++ render d ss) := rfl

@[simp] theorem render_append (ss ts : List (List α)) :
    render d (ss ++ ts) = render d ss ++ render d ts := flatMap_append

variable {ss : List (List α)} {s : List α}

theorem render_eq_nil : render d ss = [] ↔ ss = [] := by
  cases ss with
  | nil => simp
  | cons s ss => simp

theorem Free.tail (h : Free d (s :: ss)) : Free d ss :=
  fun t ht => h t (mem_cons_of_mem s ht)

theorem Free.head (h : Free d (s :: ss)) : d ∉ s :=
  h s mem_cons_self

theorem Free.initial {ts : List (List α)} (h : Free d ts) (hp : ss <+: ts) : Free d ss :=
  fun s hs => h s (hp.subset hs)

theorem append_prefix_append {s' x y : List α} (hs : d ∉ s) (hs' : d ∉ s')
    (hy : y = [] ∨ ∃ y', y = d :: y') : s ++ d :: x <+: s' ++ y ↔ s = s' ∧ d :: x <+: y := by
  induction s generalizing s' with
  | nil =>
    cases s' with
    | nil => simp
    | cons c s' =>
      have hc : d ≠ c := fun h => hs' (h ▸ mem_cons_self)
      simp [cons_prefix_cons, hc]
  | cons b s ih =>
    have hb : b ≠ d := fun h => hs (h ▸ mem_cons_self)
    cases s' with
    | nil =>
      rcases hy with rfl | ⟨y', rfl⟩
      · simp
      · simp [cons_prefix_cons, hb]
    | cons c s' =>
      have hs₁ : d ∉ s := fun h => hs (mem_cons_of_mem b h)
      have hs₂ : d ∉ s' := fun h => hs' (mem_cons_of_mem c h)
      simp only [cons_append, cons_prefix_cons, ih hs₁ hs₂, List.cons.injEq, and_assoc]

theorem render_nil_or_cons (ss : List (List α)) :
    render d ss = [] ∨ ∃ y, render d ss = d :: y := by
  cases ss with
  | nil => exact Or.inl rfl
  | cons s ss => exact Or.inr ⟨_, render_cons s ss⟩

/-- **A text starts with another one and then a delimiter** exactly when its
segments properly extend the other's. -/
theorem render_delim_prefix_iff {ps qs : List (List α)} (hp : Free d ps) (hq : Free d qs) :
    render d ps ++ [d] <+: render d qs ↔ ps <+: qs ∧ ps ≠ qs := by
  induction ps generalizing qs with
  | nil =>
    cases qs with
    | nil => simp
    | cons q qs => simp [cons_prefix_cons]
  | cons p ps ih =>
    cases qs with
    | nil => simp
    | cons q qs =>
      have hres : ∃ x, render d ps ++ [d] = d :: x := by
        rcases render_nil_or_cons (d := d) ps with h | ⟨y, h⟩
        · exact ⟨[], by rw [h]; rfl⟩
        · exact ⟨y ++ [d], by rw [h]; rfl⟩
      obtain ⟨x, hx⟩ := hres
      simp only [render_cons, cons_append, append_assoc, cons_prefix_cons, true_and]
      rw [hx, append_prefix_append hp.head hq.head (render_nil_or_cons qs), ← hx,
        ih hp.tail hq.tail]
      constructor
      · rintro ⟨rfl, hpre, hne⟩
        exact ⟨⟨rfl, hpre⟩, fun h => hne (List.cons.inj h).2⟩
      · rintro ⟨⟨rfl, hpre⟩, hne⟩
        exact ⟨rfl, hpre, fun h => hne (by rw [h])⟩

theorem render_cut (h : Free d ss) {u v : List α} (heq : render d ss = u ++ d :: v) :
    ∃ us vs, ss = us ++ vs ∧ vs ≠ [] ∧ render d us = u := by
  induction ss generalizing u with
  | nil => simp at heq
  | cons s ss ih =>
    cases u with
    | nil => exact ⟨[], s :: ss, rfl, by simp, rfl⟩
    | cons c u =>
      rw [render_cons, cons_append, List.cons.injEq] at heq
      obtain ⟨rfl, heq⟩ := heq
      -- The first segment has no delimiter, so the cut is behind it.
      rcases append_eq_append_iff.mp heq with ⟨w, rfl, hw⟩ | ⟨w, hs, hw⟩
      · obtain ⟨us, vs, rfl, hvs, hus⟩ := ih h.tail hw
        exact ⟨s :: us, vs, rfl, hvs, by rw [render_cons, hus]⟩
      · cases w with
        | nil =>
          rw [append_nil] at hs
          subst hs
          have hne : ss ≠ [] := fun h => by simp [h] at hw
          exact ⟨[s], ss, rfl, hne, by simp⟩
        | cons b w =>
          rw [cons_append, List.cons.injEq] at hw
          exact absurd (hs ▸ mem_append_right u (hw.1 ▸ mem_cons_self)) h.head

theorem render_eq_intercalate (hne : ss ≠ []) : render d ss = d :: [d].intercalate ss := by
  induction ss with
  | nil => exact absurd rfl hne
  | cons s ss ih =>
    cases ss with
    | nil => simp
    | cons t ts =>
      rw [render_cons, ih (by simp)]
      simp [intercalate]

end Render

section ProperPrefixes

omit [DecidableEq α]

def proper_prefixes : List α → List (List α)
  | [] => []
  | a :: l => [] :: (proper_prefixes l).map (a :: ·)

variable {l u m : List α}

theorem mem_proper_prefixes : u ∈ proper_prefixes l ↔ u <+: l ∧ u ≠ l := by
  induction l generalizing u with
  | nil => simp [proper_prefixes]
  | cons a l ih =>
    cases u with
    | nil => simp [proper_prefixes]
    | cons b u =>
      simp only [proper_prefixes, mem_cons, mem_map, ih, cons_prefix_cons, ne_eq,
        List.cons.injEq, reduceCtorEq, false_or]
      constructor
      · rintro ⟨v, ⟨hv, hne⟩, rfl, rfl⟩
        exact ⟨⟨rfl, hv⟩, fun h => hne h.2⟩
      · rintro ⟨⟨rfl, hu⟩, hne⟩
        exact ⟨u, ⟨hu, fun h => hne ⟨rfl, h⟩⟩, rfl, rfl⟩

theorem proper_prefixes_append (l m : List α) :
    proper_prefixes (l ++ m) = proper_prefixes l ++ (proper_prefixes m).map (l ++ ·) := by
  induction l with
  | nil => simp [proper_prefixes]
  | cons a l ih => simp [proper_prefixes, ih, comp_def]

theorem proper_prefixes_through (l : List α) (hm : m ≠ []) :
    ∃ rest, proper_prefixes (l ++ m) = proper_prefixes l ++ l :: rest := by
  obtain ⟨b, m, rfl⟩ := exists_cons_of_ne_nil hm
  exact ⟨_, by rw [proper_prefixes_append, proper_prefixes, map_cons, append_nil]⟩

variable [LinearOrder α]

theorem lt_of_prefix_ne (h : u <+: l) (hne : u ≠ l) : u < l := by
  obtain ⟨m, rfl⟩ := h
  induction u with
  | nil =>
    cases m with
    | nil => exact absurd rfl hne
    | cons b m => exact nil_lt_cons b m
  | cons a u ih =>
    rw [cons_append, cons_lt_cons_iff]
    exact Or.inr ⟨rfl, ih (fun h => hne (by rw [cons_append, ← h]))⟩

theorem pairwise_proper_prefixes (l : List α) : (proper_prefixes l).Pairwise (· < ·) := by
  induction l with
  | nil => exact List.Pairwise.nil
  | cons a l ih =>
    refine List.Pairwise.cons ?_ (pairwise_map.mpr (ih.imp fun h => ?_))
    · intro u hu
      obtain ⟨v, -, rfl⟩ := mem_map.mp hu
      exact nil_lt_cons a v
    · exact cons_lt_cons_iff.mpr (Or.inr ⟨rfl, h⟩)

theorem prefix_lt_of_lt {w : List α} (hlt : l < m) (hw : w <+: l) (hu : u <+: m)
    (hnot : ¬ u <+: l) : w < u := by
  induction u generalizing l m w with
  | nil => exact absurd ( nil_prefix) hnot
  | cons b u ih =>
    cases w with
    | nil => exact nil_lt_cons b u
    | cons a w =>
      obtain ⟨l', rfl⟩ := hw
      obtain ⟨m', rfl⟩ := hu
      simp only [cons_append, cons_lt_cons_iff, cons_prefix_cons,
        not_and] at hlt hnot ⊢
      rcases hlt with hab | ⟨rfl, hlt⟩
      · exact Or.inl hab
      · exact Or.inr ⟨rfl, ih hlt (prefix_append w l') (prefix_append u m') (hnot rfl)⟩

end ProperPrefixes

variable {ss : List (List α)} {s t : List α}

theorem splitOn_render (h : Free d ss) (hne : ss ≠ []) : (render d ss).tail.splitOn d = ss := by
  rw [render_eq_intercalate hne]
  exact splitOn_intercalate d h hne

theorem dropWhile_render (h : Free d ss) (hne : ∀ s ∈ ss, s ≠ []) :
    (render d ss).dropWhile (· == d) = (render d ss).tail := by
  cases ss with
  | nil => rfl
  | cons s ss =>
    obtain ⟨c, s, rfl⟩ := exists_cons_of_ne_nil (hne s mem_cons_self)
    have hc : c ≠ d := fun heq => h.head (heq ▸ mem_cons_self)
    simp [hc]

theorem render_splitOn (t : List α) : render d (t.splitOn d) = d :: t := by
  rw [render_eq_intercalate (splitOn_ne_nil d t), intercalate_splitOn]

omit [DecidableEq α] in
theorem false_of_mem_splitOnP {p : α → Bool} (hs : s ∈ t.splitOnP p) {c : α} (hc : c ∈ s) :
    p c = false := by
  induction t generalizing s with
  | nil => simp_all
  | cons a t ih =>
    rw [splitOnP_cons_eq_if_modifyHead] at hs
    split at hs
    · rcases mem_cons.mp hs with rfl | hs
      · exact absurd hc not_mem_nil
      · exact ih hs hc
    · rename_i ha
      cases hcut : t.splitOnP p with
      | nil => exact absurd hcut (splitOnP_ne_nil p t)
      | cons u us =>
        rw [hcut, modifyHead_cons] at hs
        rcases mem_cons.mp hs with rfl | hs
        · rcases mem_cons.mp hc with rfl | hc
          · exact Bool.not_eq_true _ ▸ ha
          · exact ih (hcut ▸ mem_cons_self) hc
        · exact ih (hcut ▸ mem_cons_of_mem u hs) hc

theorem splitOn_of_not_mem (h : d ∉ t) : t.splitOn d = [t] := by
  have hspl : ([d].intercalate [t]).splitOn d = [t] :=
    splitOn_intercalate d (by simpa using h) (by simp)
  simpa using hspl

theorem length_splitOn (t : List α) : (t.splitOn d).length = t.count d + 1 := by
  induction t with
  | nil => simp
  | cons c t ih =>
    rw [splitOn_cons_eq_if_modifyHead, count_cons]
    split
    · rw [length_cons, ih]
    · rw [length_modifyHead, ih, Nat.add_zero]

theorem splitOn_append_of_eq {u : List α} {rest : List (List α)}
    (h : t.splitOn d = u.splitOn d ++ rest) (before : List α) :
    (before ++ t).splitOn d = (before ++ u).splitOn d ++ rest := by
  induction before with
  | nil => exact h
  | cons c before ih =>
    rw [cons_append, cons_append, splitOn_cons_eq_if_modifyHead,
      splitOn_cons_eq_if_modifyHead, ih]
    split
    · rfl
    · cases hcut : (before ++ u).splitOn d with
      | nil => exact absurd hcut (splitOn_ne_nil _ _)
      | cons part parts => rfl

theorem rsplit_once_render (hs : d ∉ s) :
    rsplit_once d (render d (ss ++ [s])) = some (render d ss, s) := by
  have hmem : d ∈ render d (ss ++ [s]) := by simp
  have htak : (s.reverse ++ d :: (render d ss).reverse).takeWhile (· ≠ d) = s.reverse := by
    rw [takeWhile_append_of_pos (fun a ha => by
      simpa using fun h : a = d => hs (h ▸ mem_reverse.mp ha))]
    simp
  have hdro : (s.reverse ++ d :: (render d ss).reverse).dropWhile (· ≠ d)
      = d :: (render d ss).reverse := by
    rw [dropWhile_append_of_pos (fun a ha => by
      simpa using fun h : a = d => hs (h ▸ mem_reverse.mp ha))]
    simp
  have hrev : (render d (ss ++ [s])).reverse = s.reverse ++ d :: (render d ss).reverse := by
    simp
  rw [rsplit_once, if_pos hmem, hrev, htak, hdro]
  simp

end SovereignConfig.Lib
