/-
What the path locks keep apart. `lock_mutation_path`, `paths_collide` and the condition of
`path_collides` ask one question in three spellings, and they agree.
-/
import SovereignConfig.Values.Locks

namespace SovereignConfig.Values

open Lib Text List

/-- Some lock of one list conflicts with one of the other. -/
def Exclude (locks locks' : List (LockRequest Text)) : Prop :=
  ∃ r ∈ locks, ∃ r' ∈ locks', r.Conflicts r'

instance (locks locks' : List (LockRequest Text)) : Decidable (Exclude locks locks') :=
  inferInstanceAs (Decidable (∃ r ∈ locks, ∃ r' ∈ locks',
    r.key = r'.key ∧ (r.exclusive = true ∨ r'.exclusive = true)))

theorem Exclude.symm {locks locks' : List (LockRequest Text)} (h : Exclude locks locks') :
    Exclude locks' locks := by
  obtain ⟨r, hr, r', hr', hkey, hex⟩ := h
  exact ⟨r', hr', r, hr, hkey.symm, hex.symm⟩

variable {p q : ConfigPath}

theorem exclude_of_prefix (h : p.segs <+: q.segs) :
    Exclude (mutation_locks p) (mutation_locks q) :=
  ⟨⟨path_text p.segs, true⟩, mem_mutation_locks.mpr ⟨p.segs, prefix_rfl, by simp⟩,
    ⟨path_text p.segs, decide (p.segs = q.segs)⟩, mem_mutation_locks.mpr ⟨p.segs, h, rfl⟩,
    rfl, Or.inl rfl⟩

theorem exclude_iff_nested :
    Exclude (mutation_locks p) (mutation_locks q) ↔ p.segs <+: q.segs ∨ q.segs <+: p.segs := by
  constructor
  · rintro ⟨r, hr, r', hr', hkey, hex⟩
    obtain ⟨u, hu, rfl⟩ := mem_mutation_locks.mp hr
    obtain ⟨v, hv, rfl⟩ := mem_mutation_locks.mp hr'
    -- A key both lock is a prefix of both, and the one that holds it exclusively is that prefix.
    obtain rfl : u = v := by rw [← segments_key hu, ← segments_key hv]; exact congrArg segments hkey
    simp only [decide_eq_true_eq] at hex
    rcases hex with rfl | rfl
    · exact Or.inl hv
    · exact Or.inr hu
  · rintro (h | h)
    · exact exclude_of_prefix h
    · exact ( exclude_of_prefix h).symm

theorem segs_eq_nil_iff_fold (p : ConfigPath) : p.segs = [] ↔ p.fold = root_text := by
  constructor
  · intro h
    rw [p.fold_eq, h]
    rfl
  · intro h
    rw [p.segs_eq_nil]
    by_contra hne
    exact render_ne_root p.foldSegments_segs
      ((path_text_of_ne fun h => hne (p.segs_eq_nil.mp h)).symm.trans (p.fold_eq.symm.trans h))

theorem nested_iff_collide :
    (p.segs <+: q.segs ∨ q.segs <+: p.segs) ↔
      p.fold = root_text ∨ q.fold = root_text ∨ paths_collide p.fold q.fold = true := by
  rw [← segs_eq_nil_iff_fold, ← segs_eq_nil_iff_fold]
  by_cases hp : p.segs = []
  · exact iff_of_true (Or.inl (hp ▸ nil_prefix)) (Or.inl hp)
  by_cases hq : q.segs = []
  · exact iff_of_true (Or.inr (hq ▸ nil_prefix)) (Or.inr (Or.inl hq))
  rw [p.fold_eq, q.fold_eq, paths_collide_iff p.foldSegments_segs q.foldSegments_segs hp hq]
  simp only [hp, hq, false_or]

theorem nested_iff_stored (hp : p.fold ≠ root_text) (hne : p.fold ≠ q.fold) {t : Tables}
    {row : PathRow} (hrow : t.paths = [row]) (hfol : row.lowercase_path = q.fold) :
    (p.segs <+: q.segs ∨ q.segs <+: p.segs) ↔ t.collides p.fold = true := by
  have hop : operation_path p.path = true := by
    rcases p.canonical with h | h
    · exact absurd ((segs_eq_nil_iff_fold p).mp (p.segs_eq_nil.mpr h)) hp
    · exact h
  have hseg : segments row.lowercase_path = q.segs := by rw [hfol, segments_fold]
  rw [Tables.collides_iff p hop, hrow]
  simp only [mem_singleton, exists_eq_left, hseg, ne_eq]
  rw [hfol]
  exact (and_iff_right hne.symm).symm

/-- **Path locks serialize exactly what can collide.** -/
theorem path_locks_exclude_iff (p q : ConfigPath) :
    (Exclude (mutation_locks p) (mutation_locks q) ↔
      p.is_at_or_below q = true ∨ q.is_at_or_below p = true) ∧
    (Exclude (mutation_locks p) (mutation_locks q) ↔
      p.fold = root_text ∨ q.fold = root_text ∨ paths_collide p.fold q.fold = true) ∧
    (p.fold ≠ root_text → q.fold ≠ root_text → p.fold ≠ q.fold →
      ∀ (t : Tables) (row : PathRow), t.paths = [row] → row.lowercase_path = q.fold →
        (Exclude (mutation_locks p) (mutation_locks q) ↔ t.collides p.fold = true)) := by
  refine ⟨?_, ?_, ?_⟩
  · rw [exclude_iff_nested, is_at_or_below_iff, is_at_or_below_iff, or_comm]
  · rw [exclude_iff_nested, nested_iff_collide]
  · intro hp _ hne t row hrow hfol
    rw [exclude_iff_nested, nested_iff_stored hp hne hrow hfol]

def one_key : Tables where
  paths := [⟨"/app/Key".toList, 1, 0, 0⟩]
  contents := [⟨1, "v".toList, .PLAIN, 0, 0⟩]
  audit := []
  unique_path := by decide
  path_grammar := by decide
  path_times := by decide
  unique_content := by decide
  content_times := by decide
  content_exists := by decide

/-- Locking `/APP` waits for `/app/Key`, and a value at `/APP` would have it below. -/
theorem app_excludes_key :
    Exclude (mutation_locks ⟨"/APP".toList, by decide⟩)
        (mutation_locks ⟨"/app/Key".toList, by decide⟩) ∧
      one_key.collides (ConfigPath.fold ⟨"/APP".toList, by decide⟩) = true := by
  have h := path_locks_exclude_iff ⟨"/APP".toList, by decide⟩ ⟨"/app/Key".toList, by decide⟩
  have hcol : one_key.collides (ConfigPath.fold ⟨"/APP".toList, by decide⟩) = true := by decide
  exact ⟨(h.2.2 (by decide) (by decide) (by decide) one_key _ rfl (by decide)).mpr hcol,
    hcol⟩

end SovereignConfig.Values
