/-
`INSERT … ON CONFLICT (key) DO UPDATE` on a nullable unique key, with the history of what was
upserted.
-/
import Mathlib

namespace SovereignConfig.Lib.Upsert

open List

variable {ρ κ ι : Type} (key : ρ → Option κ) (bump : ρ → ρ → ρ) (ident : ρ → ι)

def Distinct (rows : List ρ) : Prop :=
  rows.Pairwise fun a b => (key a).isSome = true → key a ≠ key b

def window : List ρ → List ρ
  | [] => []
  | entry :: later => [later.foldl bump entry]

section Keys

variable {key} {rows : List ρ}

theorem distinct_iff : Distinct key rows ↔
    (rows.map key).Pairwise fun a b => a.isSome = true → a ≠ b := by
  rw [Distinct, pairwise_map]

theorem Distinct.eq_of_key (h : Distinct key rows) {a b : ρ} (ha : a ∈ rows) (hb : b ∈ rows)
    (hkey : key a = key b) (hsom : (key a).isSome = true) : a = b := by
  by_contra hne
  have hsym : Std.Symm fun a b : ρ => (key a).isSome = true → key a ≠ key b :=
    ⟨fun x y h hy hyx => h (hyx ▸ hy) hyx.symm⟩
  exact List.Pairwise.forall h ha hb hne hsom hkey

end Keys

variable {bump} in
theorem window_concat {entries : List ρ} {row : ρ} (h : window bump entries = [row]) (entry : ρ) :
    window bump (entries ++ [entry]) = [bump row entry] := by
  cases entries with
  | nil => exact absurd h (by simp [window])
  | cons first later =>
    have hrow : later.foldl bump first = row := by simpa [window] using h
    rw [cons_append, window, foldl_append, hrow]
    rfl

variable [DecidableEq κ]

def meets (row entry : ρ) : Bool := (key entry).isSome && key row == key entry

def upsert (rows : List ρ) (entry : ρ) : List ρ :=
  if rows.any (meets key · entry) then
    rows.map fun row => if meets key row entry then bump row entry else row
  else rows ++ [entry]

def landing (rows : List ρ) (entry : ρ) : ι :=
  ((rows.find? (meets key · entry)).map ident).getD (ident entry)

variable {key}

theorem meets_iff {row entry : ρ} :
    meets key row entry = true ↔ (key entry).isSome = true ∧ key row = key entry := by
  simp [meets]

theorem upsert_cases {rows : List ρ} (h : Distinct key rows) (entry : ρ) :
    ((∀ row ∈ rows, meets key row entry = false) ∧ upsert key bump rows entry = rows ++ [entry] ∧
      landing key ident rows entry = ident entry) ∨
    ∃ before row after, rows = before ++ row :: after ∧ meets key row entry = true ∧
      (∀ other ∈ before ++ after, meets key other entry = false) ∧
      upsert key bump rows entry = before ++ bump row entry :: after ∧
      landing key ident rows entry = ident row := by
  by_cases hany : rows.any (meets key · entry) = true
  · right
    obtain ⟨row, hrow, hmee⟩ := any_eq_true.mp hany
    obtain ⟨before, after, rfl⟩ := append_of_mem hrow
    -- A second row that meets the entry would have the first one's key.
    have hother : ∀ other ∈ before ++ after, meets key other entry = false := by
      intro other hoth
      by_contra htru
      obtain ⟨hsom, hothe⟩ := meets_iff.mp (Bool.not_eq_false _ ▸ htru)
      have hrow_k := (meets_iff.mp hmee).2
      have hrow_s : (key row).isSome = true := hrow_k ▸ hsom
      rcases mem_append.mp hoth with hmem | hmem
      · have hlt := (pairwise_append.mp h).2.2 other hmem row mem_cons_self
        exact hlt (hothe ▸ hsom) (hothe.trans hrow_k.symm)
      · have hlt := (pairwise_cons.mp (pairwise_append.mp h).2.1).1 other hmem
        exact hlt hrow_s (hrow_k.trans hothe.symm)
    have hkep : ∀ part : List ρ, (∀ other ∈ part, meets key other entry = false) →
        part.map (fun row => if meets key row entry then bump row entry else row) = part := by
      intro part hpar
      exact (map_congr_left fun other hoth => by rw [hpar other hoth]; rfl).trans
        (map_id part)
    refine ⟨before, row, after, rfl, hmee, hother, ?_, ?_⟩
    · rw [upsert, if_pos hany, map_append, map_cons, if_pos hmee,
        hkep before fun other hoth => hother other (mem_append_left _ hoth),
        hkep after fun other hoth => hother other (mem_append_right _ hoth)]
    · have hfin : (before ++ row :: after).find? (meets key · entry) = some row := by
        rw [find?_append, find?_eq_none.mpr fun other hoth => by
          simp [hother other (mem_append_left _ hoth)], find?_cons, hmee]
        rfl
      rw [landing, hfin]
      rfl
  · left
    have hnone : ∀ row ∈ rows, meets key row entry = false := by
      intro row hrow
      exact Bool.eq_false_iff.mpr fun htru => hany (any_eq_true.mpr ⟨row, hrow, htru⟩)
    refine ⟨hnone, by rw [upsert, if_neg hany], ?_⟩
    rw [landing, find?_eq_none.mpr fun row hrow => by simp [hnone row hrow]]
    rfl

variable (key) [DecidableEq ι]

structure Tracked (rows : List ρ) (history : List (ρ × ι)) : Prop where
  distinct : Distinct key rows
  placed : ∀ entry ∈ history, ∃ row ∈ rows, ident row = entry.2 ∧ key row = key entry.1
  apart : history.Pairwise fun a b => a.2 = b.2 ↔ (key a.1).isSome = true ∧ key a.1 = key b.1
  built : ∀ row ∈ rows,
    window bump ((history.filter fun entry => entry.2 = ident row).map Prod.fst) = [row]

variable {key bump ident}

omit [DecidableEq κ] in
theorem Tracked.empty : Tracked key bump ident [] [] where
  distinct := List.Pairwise.nil
  placed := by simp
  apart := List.Pairwise.nil
  built := by simp

section Step

variable {rows : List ρ} {history : List (ρ × ι)} (h : Tracked key bump ident rows history)
  {entry : ρ}
include h

theorem Tracked.added (hnone : ∀ row ∈ rows, meets key row entry = false)
    (hfre : ∀ row ∈ rows, ident row ≠ ident entry) :
    Tracked key bump ident (rows ++ [entry]) (history ++ [(entry, ident entry)]) := by
  have hkeys : ∀ row ∈ rows, (key row).isSome = true → key row ≠ key entry := by
    intro row hrow hsom heq
    exact absurd (meets_iff.mpr ⟨heq ▸ hsom, heq⟩) (by simp [hnone row hrow])
  have hlan : ∀ old ∈ history, old.2 ≠ ident entry := by
    intro old hold
    obtain ⟨row, hrow, hiden, -⟩ := h.placed old hold
    exact hiden ▸ hfre row hrow
  refine ⟨?_, ?_, ?_, ?_⟩
  · refine pairwise_append.mpr ⟨h.distinct, pairwise_singleton _ _, fun row hrow e he => ?_⟩
    rw [mem_singleton.mp he]
    exact hkeys row hrow
  · intro old hold
    rcases mem_append.mp hold with hold | hold
    · obtain ⟨row, hrow, hpla⟩ := h.placed old hold
      exact ⟨row, mem_append_left _ hrow, hpla⟩
    · rw [mem_singleton.mp hold]
      exact ⟨entry, by simp, rfl, rfl⟩
  · refine pairwise_append.mpr ⟨h.apart, pairwise_singleton _ _, fun old hold e he => ?_⟩
    rw [mem_singleton.mp he]
    refine ⟨fun heq => absurd heq (hlan old hold), fun ⟨hsom, heq⟩ => ?_⟩
    obtain ⟨row, hrow, -, hkey⟩ := h.placed old hold
    exact absurd (hkey.trans heq) (hkeys row hrow (hkey ▸ hsom))
  · intro row hrow
    rw [filter_append]
    rcases mem_append.mp hrow with hrow | hrow
    · have hne : ¬ ident entry = ident row := fun heq => hfre row hrow heq.symm
      simpa [hne] using h.built row hrow
    · obtain rfl := mem_singleton.mp hrow
      have hemp : history.filter (fun old => old.2 = ident row) = [] :=
        filter_eq_nil_iff.mpr fun old hold => by simpa using hlan old hold
      rw [hemp]
      simp [window]

theorem Tracked.bumped {before after : List ρ} {row : ρ} (hrows : rows = before ++ row :: after)
    (hmee : meets key row entry = true) (hkey : key (bump row entry) = key row)
    (hiden : ident (bump row entry) = ident row) (hnod : (rows.map ident).Nodup) :
    Tracked key bump ident (before ++ bump row entry :: after)
      (history ++ [(entry, ident row)]) := by
  obtain ⟨hsom, hrow_k⟩ := meets_iff.mp hmee
  have hrow : row ∈ rows := by simp [hrows]
  have huni : ∀ other ∈ rows, ident other = ident row → other = row := fun other hoth heq =>
    inj_on_of_nodup_map hnod hoth hrow heq
  refine ⟨?_, ?_, ?_, ?_⟩
  · have hdis := distinct_iff.mp h.distinct
    rw [hrows] at hdis
    rw [distinct_iff]
    simpa [hkey] using hdis
  · intro old hold
    rcases mem_append.mp hold with hold | hold
    · obtain ⟨other, hoth, hpla⟩ := h.placed old hold
      rw [hrows] at hoth
      rcases mem_append.mp hoth with hmem | hmem
      · exact ⟨other, mem_append_left _ hmem, hpla⟩
      · rcases mem_cons.mp hmem with rfl | hmem
        · exact ⟨bump other entry, by simp, hiden.trans hpla.1, hkey.trans hpla.2⟩
        · exact ⟨other, mem_append_right _ (mem_cons_of_mem _ hmem), hpla⟩
    · rw [mem_singleton.mp hold]
      exact ⟨bump row entry, by simp, hiden, hkey.trans hrow_k⟩
  · refine pairwise_append.mpr ⟨h.apart, pairwise_singleton _ _, fun old hold e he => ?_⟩
    rw [mem_singleton.mp he]
    obtain ⟨other, hoth, hpla, hothe⟩ := h.placed old hold
    constructor
    · intro heq
      obtain rfl := huni other hoth (hpla.trans heq)
      exact ⟨by rw [← hothe, hrow_k]; exact hsom, hothe.symm.trans hrow_k⟩
    · rintro ⟨hold_s, heq⟩
      obtain rfl := h.distinct.eq_of_key hoth hrow
        (hothe.trans (heq.trans hrow_k.symm)) (hothe ▸ hold_s)
      exact hpla.symm
  · have hbui := window_concat (h.built row hrow) entry
    intro other hoth
    rw [filter_append, map_append]
    have hcas : other = bump row entry ∨ (other ∈ rows ∧ ident other ≠ ident row) := by
      rw [hrows, map_append, map_cons, nodup_append] at hnod
      rcases mem_append.mp hoth with hmem | hmem
      · refine Or.inr ⟨hrows ▸ mem_append_left _ hmem, ?_⟩
        exact hnod.2.2 _ (mem_map_of_mem hmem) _ mem_cons_self
      · rcases mem_cons.mp hmem with rfl | hmem
        · exact Or.inl rfl
        · refine Or.inr ⟨hrows ▸ mem_append_right _ (mem_cons_of_mem _ hmem), fun heq => ?_⟩
          exact (nodup_cons.mp hnod.2.1).1 (heq ▸ mem_map_of_mem hmem)
    rcases hcas with rfl | ⟨hoth, hne⟩
    · simpa [hiden] using hbui
    · simpa [Ne.symm hne] using h.built other hoth

end Step

variable {rows : List ρ} {history : List (ρ × ι)}

theorem Tracked.upsert (h : Tracked key bump ident rows history)
    (hkey : ∀ row entry, key (bump row entry) = key row)
    (hiden : ∀ row entry, ident (bump row entry) = ident row) (entry : ρ)
    (hnod : ((upsert key bump rows entry).map ident).Nodup) :
    Tracked key bump ident (upsert key bump rows entry)
      (history ++ [(entry, landing key ident rows entry)]) := by
  rcases upsert_cases bump ident h.distinct entry with
    ⟨hnone, hrows, hlan⟩ | ⟨before, row, after, hspl, hmee, -, hrows, hlan⟩
  · rw [hrows, hlan]
    rw [hrows, map_append, map_singleton] at hnod
    refine h.added hnone fun row hrow heq => ?_
    exact (nodup_append.mp hnod).2.2 _ (mem_map_of_mem hrow) _ mem_cons_self heq
  · rw [hrows, hlan]
    refine h.bumped hspl hmee (hkey row entry) (hiden row entry) ?_
    rw [hrows] at hnod
    simpa [hspl, hiden] using hnod

theorem Tracked.filter_eq (h : Tracked key bump ident rows history)
    (hnod : (rows.map ident).Nodup) {row : ρ} (hrow : row ∈ rows)
    (hsom : (key row).isSome = true) :
    history.filter (fun entry => entry.2 = ident row) =
      history.filter fun entry => key entry.1 = key row := by
  refine filter_congr fun entry hent => ?_
  obtain ⟨other, hoth, hpla, hkey⟩ := h.placed entry hent
  rw [decide_eq_decide]
  constructor
  · intro heq
    rw [← hkey, inj_on_of_nodup_map hnod hoth hrow (hpla.trans heq)]
  · intro heq
    have hsam : key other = key row := hkey.trans heq
    rw [← hpla, h.distinct.eq_of_key hoth hrow hsam (hsam ▸ hsom)]

theorem Tracked.one_row (h : Tracked key bump ident rows history) {k : κ}
    (hk : ∃ entry ∈ history, key entry.1 = some k) :
    ∃ row ∈ rows, key row = some k ∧ rows.filter (fun row => key row = some k) = [row] := by
  obtain ⟨entry, hentr, hent⟩ := hk
  obtain ⟨row, hrow, -, hkey⟩ := h.placed entry hentr
  have hrow_k := hkey.trans hent
  refine ⟨row, hrow, hrow_k, ?_⟩
  have hdis := h.distinct
  obtain ⟨before, after, rfl⟩ := append_of_mem hrow
  obtain ⟨-, haft, hbef⟩ := pairwise_append.mp hdis
  have hnone : ∀ part : List ρ, (∀ other ∈ part, key other ≠ some k) →
      part.filter (fun row => key row = some k) = [] := by
    intro part hpar
    exact filter_eq_nil_iff.mpr fun other hoth => by simpa using hpar other hoth
  rw [filter_append, filter_cons_of_pos (by simpa using hrow_k), hnone before ?_,
    hnone after ?_, nil_append]
  · intro other hoth heq
    have hsom : (key row).isSome = true := by rw [hrow_k]; rfl
    exact (pairwise_cons.mp haft).1 other hoth hsom (hrow_k.trans heq.symm)
  · intro other hoth heq
    have hsom : (key other).isSome = true := by rw [heq]; rfl
    exact hbef other hoth row mem_cons_self hsom (heq.trans hrow_k.symm)

theorem sum_countP {idents : List ι} (hnod : idents.Nodup)
    (h : ∀ entry ∈ history, entry.2 ∈ idents) :
    (idents.map fun i => history.countP fun entry => entry.2 = i).sum = history.length := by
  induction history with
  | nil => simp
  | cons entry history ih =>
    have hone : (idents.map fun i => if entry.2 = i then 1 else 0).sum = 1 := by
      rw [← sum_toFinset _ hnod, Finset.sum_ite_eq,
        if_pos (mem_toFinset.mpr (h entry mem_cons_self))]
    simp only [countP_cons, decide_eq_true_eq]
    rw [sum_map_add, ih fun e he => h e (mem_cons_of_mem _ he), hone, length_cons]

end SovereignConfig.Lib.Upsert
