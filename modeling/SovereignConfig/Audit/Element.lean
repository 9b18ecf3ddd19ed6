/-
The scope of an element query (`element_scope` of `audit/service.rs`), as the source's loop over byte
offsets finds it, and the subtree reads it stands for.
-/
import SovereignConfig.Audit.Service
import SovereignConfig.Values.Readable

namespace SovereignConfig.Audit

open Lib Text Values List

/-- The loop of `element_scope`, by its offset. A slice out of range is `none`, and so is a loop
that goes on after so many rounds. -/
def ancestors_loop (fold : Text) : ℕ → ℕ → List Text → Option (List Text)
  | 0, _, _ => none
  | rounds + 1, offset, ancestors =>
    if offset + 1 ≤ fold.length then
      match (fold.drop (offset + 1)).idxOf? '/' with
      | none => some ancestors
      | some next =>
        ancestors_loop fold rounds (offset + 1 + next)
          (ancestors ++ [fold.take (offset + 1 + next)])
    else none

theorem idxOf_slash {segment : Text} (h : '/' ∉ segment) (rest : Text) :
    (segment ++ '/' :: rest).idxOf? '/' = some segment.length := by
  have hnone : segment.findIdx? (· == '/') = none :=
    findIdx?_eq_none_iff.mpr fun c hc => by
      rw [beq_eq_false_iff_ne]
      rintro rfl
      exact h hc
  rw [idxOf?, findIdx?_append, hnone, findIdx?_cons]
  simp

theorem ancestors_loop_eq (rounds : ℕ) (built rest : Text) (ancestors : List Text)
    (h : rest.length < rounds) :
    ancestors_loop (built ++ '/' :: rest) rounds built.length ancestors
      = some (ancestors ++ ancestors_from built [] rest) := by
  induction rounds generalizing built rest ancestors with
  | zero => exact absurd h (Nat.not_lt_zero _)
  | succ rounds ih =>
    have hdro : (built ++ '/' :: rest).drop (built.length + 1) = rest := by
      rw [drop_append, drop_eq_nil_of_le (Nat.le_succ _)]
      simp
    rw [ancestors_loop, if_pos (by simp), hdro]
    by_cases hsla : '/' ∈ rest
    · obtain ⟨segment, later, rfl, hseg⟩ := eq_append_cons_of_mem hsla
      have hfol : built ++ '/' :: (segment ++ '/' :: later)
          = (built ++ '/' :: segment) ++ '/' :: later := by simp
      have hoff : built.length + 1 + segment.length = (built ++ '/' :: segment).length := by
        rw [length_append, length_cons]
        omega
      have hlat : later.length < rounds := by
        rw [length_append, length_cons] at h
        omega
      rw [idxOf_slash hseg]
      simp only
      rw [hoff, hfol, take_left, ih _ _ _ hlat, ancestors_from_append hseg,
        nil_append, ancestors_from, if_pos rfl]
      simp
    · have hnone : rest.idxOf? '/' = none := idxOf?_eq_none_iff.mpr hsla
      have hfro := ancestors_from_append hsla built [] []
      rw [append_nil] at hfro
      rw [hnone, hfro, ancestors_from, append_nil]

theorem mem_ancestors {path : ConfigPath} (h : operation_path path.path = true)
    (root : ConfigPath) :
    root.fold ∈ (element_scope path).ancestors ↔ AtOrBelow path root ∧ root.fold ≠ path.fold := by
  rw [element_ancestors h, mem_map, at_or_below_segs, ne_eq, ← ConfigPath.segs_inj,
    ← ne_eq, ← mem_proper_prefixes]
  constructor
  · rintro ⟨ss, hss, htex⟩
    have hok := path.foldSegments_segs.initial (mem_proper_prefixes.mp hss).1
    rwa [(ConfigPath.fold_eq_iff hok).mp htex.symm]
  · exact fun hss => ⟨_, hss, root.fold_eq.symm⟩

theorem returned_iff {env : ReadEnv} {t : Tables} {context : CallContext} {text : Text}
    {root path : ConfigPath} {found : List SubTreeValue} {row : PathRow} (hrow : row ∈ t.paths)
    (hfol : row.lowercase_path = path.fold)
    (haut : authorize context text [.Read] true = .ok root)
    (hfou : ((get_sub_tree context text).run (serve_read env) t).1 = .ok found) :
    (∃ value ∈ found, value.path.fold = path.fold) ↔ AtOrBelow path root := by
  obtain ⟨-, principal, hp, -⟩ := authorize_ok haut
  rw [← at_or_below_fold]
  constructor
  · rintro ⟨value, hval, hpat⟩
    rw [get_sub_tree_eq hp, haut] at hfou
    obtain rfl := Except.ok.inj hfou
    obtain ⟨v, hv, rfl⟩ := mem_map.mp hval
    obtain ⟨hvie, hbel⟩ := mem_filter.mp hv
    obtain ⟨⟨p, c⟩, hpc, rfl⟩ := mem_map.mp hvie
    have hgra := t.path_grammar p (mem_readable_rows.mp hpc).1.1
    have hdis : (display_path p.path).fold = p.lowercase_path := by
      rw [display_path, dif_pos hgra]
      rfl
    rw [← hpat]
    exact hdis ▸ hbel
  · intro hbel
    obtain ⟨c, hc, hid⟩ := t.content_exists row hrow
    obtain ⟨found', hfou', hall⟩ := @sub_tree_complete t _ _ env _ hp _ haut
    obtain rfl : found = found' := Except.ok.inj (hfou.symm.trans hfou')
    obtain ⟨value, hval, hpat, -⟩ := hall row hrow c hc hid (hfol.symm ▸ hbel)
    exact ⟨value, hval, (congrArg to_ascii_lowercase hpat).trans hfol⟩

/-- **The scope of an element query is found without a panic, and is the proper ancestors of the
path:** the roots other than the path itself whose `get_sub_tree` returns a value stored there. -/
theorem element_scope_exact (path : ConfigPath) (h : path.path ≠ root_text) :
    (∀ rounds, path.fold.length ≤ rounds →
      ancestors_loop path.fold rounds 0 [root_text] = some (element_scope path).ancestors) ∧
    (element_scope path).ancestors = (proper_prefixes path.segs).map path_text ∧
    (element_scope path).ancestors.Nodup ∧
    (element_scope path).ancestors.getLast? = some (element_scope path).parent ∧
    (element_scope path).parent = parent_path path.fold ∧
    (∀ root, root.fold ∈ (element_scope path).ancestors ↔
      path.is_at_or_below root = true ∧ root.fold ≠ path.fold) ∧
    ∀ (env : ReadEnv) (t : Tables) (context : CallContext) (text : Text) (root : ConfigPath)
      (found : List SubTreeValue) (row : PathRow), row ∈ t.paths →
      row.lowercase_path = path.fold → authorize context text [.Read] true = .ok root →
      ((get_sub_tree context text).run (serve_read env) t).1 = .ok found →
      (root.fold ∈ (element_scope path).ancestors ↔
        (∃ value ∈ found, value.path.fold = path.fold) ∧ root.fold ≠ path.fold) := by
  have hop : operation_path path.path = true := path.canonical.resolve_left h
  have hne : path.segs ≠ [] := fun hnil => h (path.segs_eq_nil.mp hnil)
  obtain ⟨ss, s, hcat⟩ : ∃ ss s, path.segs = ss ++ [s] :=
    ⟨_, _, (dropLast_concat_getLast hne).symm⟩
  have hanc := element_ancestors hop
  refine ⟨fun rounds hrou => ?_, hanc, ?_, ?_, ?_, fun root => ?_, ?_⟩
  · obtain ⟨rest, hres⟩ := path.root_prefix
    have hfol : path.fold = [] ++ '/' :: rest := hres.symm
    have htai : path.fold.tail = rest := by rw [hfol]; rfl
    have hlength : rest.length < rounds := by
      rw [hfol, nil_append, length_cons] at hrou
      omega
    rw [hfol, show 0 = ([] : Text).length from rfl, ancestors_loop_eq _ _ _ _ hlength,
      element_scope, htai]
    rfl
  · rw [hanc]
    refine List.Nodup.map_on ?_ ((pairwise_proper_prefixes _).imp ne_of_lt)
    intro u hu v hv heq
    exact path_text_inj (path.foldSegments_segs.initial (mem_proper_prefixes.mp hu).1)
      (path.foldSegments_segs.initial (mem_proper_prefixes.mp hv).1) heq
  · rw [element_parent hop, hanc, hcat, proper_prefixes_append]
    simp [proper_prefixes]
  · rw [element_parent hop, path.fold_eq, hcat, parent_path_concat (hcat ▸ path.foldSegments_segs),
      dropLast_concat]
  · rw [mem_ancestors hop, at_or_below_segs, is_at_or_below_iff]
  · intro env t context text root found row hrow hfol haut hfou
    rw [mem_ancestors hop, returned_iff hrow hfol haut hfou]

def nested_path : ConfigPath := ⟨"/A/b-c/d".toList, by decide⟩

theorem nested_scope : (element_scope nested_path).ancestors =
      ["/".toList, "/a".toList, "/a/b-c".toList] ∧
    (element_scope nested_path).parent = parent_path nested_path.fold :=
  ⟨by decide, (element_scope_exact nested_path (by decide)).2.2.2.2.1⟩

end SovereignConfig.Audit
