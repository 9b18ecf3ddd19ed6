/-
Trees of values at paths, none of them above another. A trie is what it holds (`ext`), so the order
of insertion does not matter.
-/
import Mathlib.Data.List.Pairwise
import SovereignConfig.Lib.FoldMap

namespace SovereignConfig.Lib

open List Function FoldMap

inductive Trie (κ α : Type) where
  | Leaf (value : α)
  | Node (children : List (κ × Trie κ α))

def Unrelated {κ : Type} (path other : List κ) : Prop := ¬ path <+: other ∧ ¬ other <+: path

theorem Unrelated.symm {κ : Type} {path other : List κ} (h : Unrelated path other) :
    Unrelated other path := ⟨h.2, h.1⟩

theorem unrelated_cons {κ : Type} {k : κ} {path other : List κ} :
    Unrelated (k :: path) (k :: other) ↔ Unrelated path other := by
  simp [Unrelated, cons_prefix_cons]

theorem unrelated_cons_of_ne {κ : Type} {k k' : κ} (h : k ≠ k') (path other : List κ) :
    Unrelated (k :: path) (k' :: other) := by
  simp [Unrelated, cons_prefix_cons, h, h.symm]

namespace Trie

variable {κ α β : Type} [LinearOrder κ]

def get : List κ → Trie κ α → Option α
  | [], Leaf value => some value
  | [], Node _ => none
  | _ :: _, Leaf _ => none
  | k :: path, Node children => (FoldMap.find id k children).bind (get path)

def insert (children : List (κ × Trie κ α)) : List κ → α → Option (List (κ × Trie κ α))
  | [], _ => none
  | [k], value =>
    if (FoldMap.find id k children).isSome then none
    else some (FoldMap.put id k (Leaf value) children)
  | k :: next :: path, value =>
    match (FoldMap.find id k children).getD (Node []) with
    | Leaf _ => none
    | Node child =>
      (insert child (next :: path) value).map fun child =>
        FoldMap.put id k (Node child) children

inductive Good : Trie κ α → Prop
  | leaf (value : α) : Good (Leaf value)
  | node {children : List (κ × Trie κ α)} : children ≠ [] → FoldMap.Ordered id children →
      (∀ entry ∈ children, Good entry.2) → Good (Node children)

structure GoodChildren (children : List (κ × Trie κ α)) : Prop where
  ordered : FoldMap.Ordered id children
  entries : ∀ entry ∈ children, entry.2.Good

theorem goodChildren_nil : GoodChildren ([] : List (κ × Trie κ α)) :=
  ⟨List.Pairwise.nil, fun _ h => absurd h not_mem_nil⟩

variable {children children' : List (κ × Trie κ α)} {k : κ} {path : List κ} {value : α}

variable {t t' : Trie κ α}

theorem GoodChildren.find (h : GoodChildren children)
    (hfin : FoldMap.find id k children = some t) : t.Good := by
  obtain ⟨key, hmem, -⟩ := find_mem hfin
  exact h.entries (key, t) hmem

theorem Good.goodChildren (h : (Node children).Good) : GoodChildren children := by
  cases h with
  | node _ hord hent => exact ⟨hord, hent⟩

theorem GoodChildren.put (h : GoodChildren children) (ht : t.Good) :
    GoodChildren (FoldMap.put id k t children) := by
  refine ⟨ordered_put h.ordered, fun entry hent => ?_⟩
  -- The entry is what is found under its key, which is the new one or one of before.
  have hfin := find_of_mem (ordered_put h.ordered) hent
  rw [find_put] at hfin
  split at hfin
  · exact Option.some.inj hfin ▸ ht
  · exact h.find hfin

theorem Good.holds (h : t.Good) : ∃ path value, t.get path = some value := by
  induction h with
  | leaf value => exact ⟨[], value, rfl⟩
  | @node children hne hord _ ih =>
    obtain ⟨entry, hent⟩ := exists_mem_of_ne_nil children hne
    obtain ⟨path, value, hget⟩ := ih entry hent
    exact ⟨entry.1 :: path, value, by rw [get, find_of_mem hord hent]; exact hget⟩

/-! ## Inserting -/

def Clear (t : Trie κ α) (path : List κ) : Prop :=
  ∀ held value, t.get held = some value → Unrelated held path

theorem get_cons : (Node children).get (k :: path) = (FoldMap.find id k children).bind (get path) :=
  rfl

theorem clear_cons {next : List κ} : (Node children).Clear (k :: next) ↔
    ∀ t, FoldMap.find id k children = some t → t.Clear next := by
  constructor
  · intro h t hfin held value hget
    have hhel := h (k :: held) value (by rw [get_cons, hfin]; exact hget)
    exact unrelated_cons.mp hhel
  · intro h held value hget
    cases held with
    | nil => exact absurd hget (by simp [get])
    | cons k' held =>
      by_cases hk : k' = k
      · subst hk
        obtain ⟨t, hfin, ht⟩ := Option.bind_eq_some_iff.mp hget
        exact unrelated_cons.mpr (h t hfin held value ht)
      · exact unrelated_cons_of_ne hk _ _

theorem not_clear_nil (h : t.Good) : ¬ t.Clear [] := by
  obtain ⟨path, value, hget⟩ := h.holds
  exact fun hcle => (hcle path value hget).2 nil_prefix

theorem not_clear_leaf (value : α) (path : List κ) : ¬ (Leaf value : Trie κ α).Clear path :=
  fun hcle => (hcle [] value rfl).1 nil_prefix

theorem clear_empty (path : List κ) : (Node [] : Trie κ α).Clear path := by
  intro held value hget
  cases held <;> simp [get, FoldMap.find] at hget

theorem insert_isSome_iff (h : GoodChildren children) (path : List κ) (value : α) :
    (insert children path value).isSome = true ↔ path ≠ [] ∧ (Node children).Clear path := by
  induction path generalizing children with
  | nil => simp [insert]
  | cons k rest ih =>
    rw [clear_cons]
    cases rest with
    | nil =>
      cases hfin : FoldMap.find id k children with
      | none => simp [insert, hfin]
      | some t => simp [insert, hfin, not_clear_nil (h.find hfin)]
    | cons next rest =>
      cases hfin : FoldMap.find id k children with
      | none =>
        have hemp := (ih goodChildren_nil).mpr ⟨by simp, clear_empty (next :: rest)⟩
        simpa [insert, hfin] using hemp
      | some t =>
        cases t with
        | Leaf old => simp [insert, hfin, not_clear_leaf old (next :: rest)]
        | Node child =>
          have hchi := ih (h.find hfin).goodChildren
          simpa [insert, hfin] using hchi

theorem insert_spec (h : GoodChildren children)
    (hins : insert children path value = some children') :
    GoodChildren children' ∧ children' ≠ [] ∧
      ∀ q, (Node children').get q = if q = path then some value else (Node children).get q := by
  induction path generalizing children children' with
  | nil => exact absurd hins (by simp [insert])
  | cons k rest ih =>
    -- After a subtree is put under `k`, paths elsewhere lead where they led.
    have hels : ∀ (t : Trie κ α) (q : List κ),
        (∀ q', q = k :: q' → t.get q' = if q' = rest then some value
          else (Node children).get (k :: q')) →
        (Node (FoldMap.put id k t children)).get q =
          if q = k :: rest then some value else (Node children).get q := by
      intro t q hq
      cases q with
      | nil => simp [get]
      | cons k' q' =>
        rw [get_cons, find_put]
        by_cases hk : k = k'
        · subst hk
          simpa using hq q' rfl
        · rw [if_neg (by simpa using hk), if_neg (by simp [Ne.symm hk])]
          rfl
    cases rest with
    | nil =>
      simp only [insert] at hins
      split at hins
      · simp at hins
      · rename_i hnone
        obtain rfl := Option.some.inj hins
        refine ⟨h.put (.leaf value), put_ne_nil, fun q => hels _ q fun q' _ => ?_⟩
        have hfin : FoldMap.find id k children = none := by simpa using hnone
        cases q' <;> simp [get, hfin]
    | cons next rest =>
      -- The child on the way, an empty node where there is none.
      obtain ⟨child, hchi, hgoo, hget⟩ : ∃ child : List (κ × Trie κ α),
          (FoldMap.find id k children).getD (Node []) = Node child ∧ GoodChildren child ∧
          ∀ q, (Node children).get (k :: q) = (Node child).get q := by
        cases hfin : FoldMap.find id k children with
        | none =>
          refine ⟨[], rfl, goodChildren_nil, fun q => ?_⟩
          rw [get_cons, hfin]
          cases q <;> rfl
        | some t =>
          cases t with
          | Leaf old => simp [insert, hfin] at hins
          | Node child =>
            exact ⟨child, rfl, (h.find hfin).goodChildren, fun q => by rw [get_cons, hfin]; rfl⟩
      simp only [insert, hchi, Option.map_eq_some_iff] at hins
      obtain ⟨child', hres, rfl⟩ := hins
      obtain ⟨hgoo', hne', hget'⟩ := ih hgoo hres
      refine ⟨h.put (.node hne' hgoo'.ordered hgoo'.entries), put_ne_nil,
        fun q => hels _ q fun q' _ => ?_⟩
      rw [hget', hget]

theorem eq_of_find_eq (h : FoldMap.Ordered id children) (h' : FoldMap.Ordered id children')
    (heq : ∀ k, FoldMap.find id k children = FoldMap.find id k children') :
    children = children' := by
  have hmem : ∀ {first second : List (κ × Trie κ α)}, FoldMap.Ordered id first →
      (∀ k, FoldMap.find id k first = FoldMap.find id k second) → ∀ e ∈ first, e ∈ second := by
    intro first second hfir hfind e he
    have hfin := find_of_mem hfir he
    rw [hfind] at hfin
    obtain ⟨key, hkey, rfl⟩ := find_mem hfin
    exact hkey
  have hirr : ∀ {l : List (κ × Trie κ α)}, FoldMap.Ordered id l → l.Nodup := fun hl =>
    hl.imp fun hlt heq => absurd (heq ▸ hlt) (lt_irrefl _)
  have hper : children.Perm children' := (perm_ext_iff_of_nodup (hirr h) (hirr h')).mpr
    fun e => ⟨hmem h heq e, hmem h' (fun k => (heq k).symm) e⟩
  exact hper.eq_of_pairwise (fun a b _ _ hab hba => absurd hab hba.asymm) h h'

theorem children_ext (h : GoodChildren children) (h' : GoodChildren children')
    (hent : ∀ entry ∈ children, ∀ t' : Trie κ α, t'.Good →
      (∀ q, entry.2.get q = t'.get q) → entry.2 = t')
    (hget : ∀ q, (Node children).get q = (Node children').get q) : children = children' := by
  -- What leads somewhere in one leads there in the other.
  have hlea : ∀ {first second : List (κ × Trie κ α)} {k t}, GoodChildren first →
      (∀ q, (Node first).get q = (Node second).get q) → FoldMap.find id k first = some t →
      ∃ t', FoldMap.find id k second = some t' ∧ ∀ q, t.get q = t'.get q := by
    intro first second k t hfir hgets hfin
    obtain ⟨path, value, ht⟩ := (hfir.find hfin).holds
    have hsec := hgets (k :: path)
    rw [get_cons, get_cons, hfin, Option.bind_some, ht] at hsec
    obtain ⟨t', hfin', -⟩ := Option.bind_eq_some_iff.mp hsec.symm
    refine ⟨t', hfin', fun q => ?_⟩
    have hq := hgets (k :: q)
    rwa [get_cons, get_cons, hfin, hfin'] at hq
  refine eq_of_find_eq h.ordered h'.ordered fun k => ?_
  cases hfin : FoldMap.find id k children with
  | none =>
    cases hfin' : FoldMap.find id k children' with
    | none => rfl
    | some t' =>
      obtain ⟨t, ht, -⟩ := hlea h' (fun q => (hget q).symm) hfin'
      exact absurd (hfin.symm.trans ht) (by simp)
  | some t =>
    obtain ⟨t', hfin', ht⟩ := hlea h hget hfin
    obtain ⟨key, hmem, -⟩ := find_mem hfin
    exact hfin'.symm ▸ congrArg some (hent (key, t) hmem t' (h'.find hfin') ht)

theorem Good.ext (h : t.Good) (h' : t'.Good) (hget : ∀ q, t.get q = t'.get q) : t = t' := by
  induction h generalizing t' with
  | leaf value =>
    cases h' with
    | leaf value' => rw [Option.some.inj (hget [])]
    | node _ _ _ => exact absurd (hget []) (by simp [get])
  | @node children hne hord hent ih =>
    cases h' with
    | leaf value' => exact absurd (hget []) (by simp [get])
    | node _ hord' hent' =>
      rw [children_ext ⟨hord, hent⟩ ⟨hord', hent'⟩
        (fun entry hentr t' ht' hgets => ih entry hentr ht' hgets) hget]

def Whole : Trie κ α → Prop
  | Leaf _ => True
  | Node children => GoodChildren children

theorem Whole.ext (h : t.Whole) (h' : t'.Whole) (hget : ∀ q, t.get q = t'.get q) : t = t' := by
  cases t with
  | Leaf value =>
    cases t' with
    | Leaf value' => rw [Option.some.inj (hget [])]
    | Node children' => exact absurd (hget []) (by simp [get])
  | Node children =>
    cases t' with
    | Leaf value' => exact absurd (hget []) (by simp [get])
    | Node children' =>
      have hchi : GoodChildren children := h
      rw [children_ext hchi h'
        (fun entry hent t' ht' hgets => (hchi.entries entry hent).ext ht' hgets) hget]

/-! ## Assembling -/

def place (state : List (κ × Trie κ α) × Option α) (entry : List κ × α) :
    Option (List (κ × Trie κ α) × Option α) :=
  if entry.1 = [] then
    if state.2.isSome then none else some (state.1, some entry.2)
  else (insert state.1 entry.1 entry.2).map fun children => (children, state.2)

def close (state : List (κ × Trie κ α) × Option α) : Option (Trie κ α) :=
  match state.2 with
  | some value => if state.1.isEmpty then some (Leaf value) else none
  | none => some (Node state.1)

def assemble (entries : List (List κ × α)) : Option (Trie κ α) :=
  (entries.foldlM place ([], none)).bind close

def look (state : List (κ × Trie κ α) × Option α) (path : List κ) : Option α :=
  if path = [] then state.2 else (Node state.1).get path

def Placeable (path other : List κ) : Prop := (path = [] ↔ other = []) → Unrelated path other

variable {state state' : List (κ × Trie κ α) × Option α} {entry : List κ × α}
  {entries : List (List κ × α)}

theorem place_isSome_iff (h : GoodChildren state.1) : (place state entry).isSome = true ↔
    ∀ held value, look state held = some value → Placeable held entry.1 := by
  unfold place look
  split
  · rename_i hnil
    constructor
    · intro hplac held value hloo hiff
      have hhel : held = [] := hiff.mpr hnil
      rw [if_pos hhel] at hloo
      simp [hloo] at hplac
    · intro hpla
      cases hexa : state.2 with
      | none => simp
      | some value =>
        have hsel := hpla [] value (by simp [hexa]) (by simp [hnil])
        exact absurd nil_prefix hsel.1
  · rename_i hne
    rw [Option.isSome_map, insert_isSome_iff h]
    constructor
    · rintro ⟨-, hcle⟩ held value hloo hiff
      have hhel : held ≠ [] := fun hnil => hne (hiff.mp hnil)
      rw [if_neg hhel] at hloo
      exact hcle held value hloo
    · intro hpla
      refine ⟨hne, fun held value hget => ?_⟩
      have hhel : held ≠ [] := fun hnil => by simp [hnil, get] at hget
      exact hpla held value (by rwa [if_neg hhel]) (by simp [hhel, hne])

theorem place_spec (h : GoodChildren state.1) (hpla : place state entry = some state') :
    GoodChildren state'.1 ∧
      ∀ q, look state' q = if q = entry.1 then some entry.2 else look state q := by
  unfold place at hpla
  split at hpla
  · rename_i hnil
    split at hpla
    · simp at hpla
    · obtain rfl := Option.some.inj hpla
      refine ⟨h, fun q => ?_⟩
      by_cases hq : q = [] <;> simp [look, hq, hnil]
  · rename_i hne
    obtain ⟨children', hins, rfl⟩ := Option.map_eq_some_iff.mp hpla
    obtain ⟨hgoo, -, hget⟩ := insert_spec h hins
    refine ⟨hgoo, fun q => ?_⟩
    by_cases hq : q = []
    · simp [look, hq, Ne.symm hne]
    · simp [look, hq, hget]

theorem places_isSome_iff (h : GoodChildren state.1) :
    (entries.foldlM place state).isSome = true ↔
      entries.Pairwise (fun e e' => Placeable e.1 e'.1) ∧
        ∀ e ∈ entries, ∀ held value, look state held = some value → Placeable held e.1 := by
  induction entries generalizing state with
  | nil => simp
  | cons entry entries ih =>
    rw [foldlM_cons, pairwise_cons, forall_mem_cons, ← place_isSome_iff h]
    cases hpla : place state entry with
    | none => simp
    | some state₁ =>
      obtain ⟨hgoo, hloo⟩ := place_spec h hpla
      show (entries.foldlM place state₁).isSome = true ↔ _
      rw [ih hgoo]
      constructor
      · rintro ⟨hpai, hall⟩
        refine ⟨⟨fun e he => hall e he entry.1 entry.2 (by simp [hloo]), hpai⟩, rfl,
          fun e he held value hhel => ?_⟩
        by_cases hq : held = entry.1
        · exact hq ▸ hall e he entry.1 entry.2 (by simp [hloo])
        · exact hall e he held value (by rw [hloo, if_neg hq, hhel])
      · rintro ⟨⟨hhea, hpai⟩, -, hall⟩
        refine ⟨hpai, fun e he held value hhel => ?_⟩
        rw [hloo] at hhel
        split at hhel
        · rename_i hq
          exact hq ▸ hhea e he
        · exact hall e he held value hhel

theorem places_spec (h : GoodChildren state.1) (hpla : entries.foldlM place state = some state') :
    GoodChildren state'.1 ∧ ∀ q value, look state' q = some value ↔
      look state q = some value ∨ (q, value) ∈ entries := by
  induction entries generalizing state with
  | nil =>
    obtain rfl := Option.some.inj hpla
    exact ⟨h, by simp⟩
  | cons entry entries ih =>
    rw [foldlM_cons] at hpla
    obtain ⟨state₁, hplace, hres⟩ := Option.bind_eq_some_iff.mp hpla
    have hplac := (place_isSome_iff h).mp (by rw [hplace]; rfl)
    obtain ⟨hgoo, hloo⟩ := place_spec h hplace
    obtain ⟨hgoo', hloo'⟩ := ih hgoo hres
    refine ⟨hgoo', fun q value => ?_⟩
    rw [hloo', hloo, mem_cons]
    by_cases hq : q = entry.1
    · -- Nothing was held at the entry's own path.
      subst hq
      have hnone : ∀ value, look state entry.1 ≠ some value := fun value hhel =>
        (hplac entry.1 value hhel Iff.rfl).1 (prefix_refl _)
      rw [if_pos rfl, Option.some_inj]
      constructor
      · rintro (rfl | hmem)
        · exact Or.inr (Or.inl rfl)
        · exact Or.inr (Or.inr hmem)
      · rintro (hold | heq | hmem)
        · exact absurd hold (hnone value)
        · exact Or.inl (congrArg Prod.snd heq).symm
        · exact Or.inr hmem
    · rw [if_neg hq]
      constructor
      · rintro (hold | hmem)
        · exact Or.inl hold
        · exact Or.inr (Or.inr hmem)
      · rintro (hold | heq | hmem)
        · exact Or.inl hold
        · exact absurd (congrArg Prod.fst heq) hq
        · exact Or.inr hmem

theorem close_spec (h : GoodChildren state.1) (hclo : close state = some t) :
    t.Whole ∧ ∀ q, t.get q = look state q := by
  obtain ⟨children, exact⟩ := state
  cases exact with
  | none =>
    obtain rfl := Option.some.inj hclo
    refine ⟨h, fun q => ?_⟩
    cases q with
    | nil => rfl
    | cons k q => rfl
  | some value =>
    cases children with
    | cons entry children => exact absurd hclo (by simp [close])
    | nil =>
      obtain rfl := Option.some.inj hclo
      refine ⟨trivial, fun q => ?_⟩
      cases q with
      | nil => rfl
      | cons k q => rfl

theorem assemble_spec (h : assemble entries = some t) :
    t.Whole ∧ ∀ q value, t.get q = some value ↔ (q, value) ∈ entries := by
  obtain ⟨state, hpla, hclo⟩ := Option.bind_eq_some_iff.mp h
  obtain ⟨hgoo, hloo⟩ := places_spec goodChildren_nil hpla
  obtain ⟨hwho, hget⟩ := close_spec hgoo hclo
  refine ⟨hwho, fun q value => ?_⟩
  rw [hget, hloo]
  refine or_iff_right fun hemp => ?_
  cases q <;> simp [look, get, FoldMap.find] at hemp

theorem eq_nil_of_get_nil (h : t.get [] = some value) {q : List κ} {other : α}
    (hq : t.get q = some other) : q = [] := by
  cases t with
  | Node children => exact absurd h (by simp [get])
  | Leaf value =>
    cases q with
    | nil => rfl
    | cons k q => exact absurd hq (by simp [get])

theorem assemble_isSome_iff : (assemble entries).isSome = true ↔
    entries.Pairwise fun e e' => Unrelated e.1 e'.1 := by
  have hpla : (entries.foldlM place (([] : List (κ × Trie κ α)), none)).isSome = true ↔ _ :=
    places_isSome_iff goodChildren_nil
  constructor
  · intro hsom
    obtain ⟨t, ht⟩ := Option.isSome_iff_exists.mp hsom
    have hhel := (assemble_spec ht).2
    have hplac : entries.Pairwise fun e e' => Placeable e.1 e'.1 := by
      obtain ⟨state, hstate, -⟩ := Option.bind_eq_some_iff.mp ht
      exact (hpla.mp (by rw [hstate]; rfl)).1
    -- A value at the empty path is alone, so any two paths are compared.
    refine hplac.imp_of_mem fun {e e'} he he' hpai => hpai ⟨fun hnil => ?_, fun hnil => ?_⟩
    · exact eq_nil_of_get_nil (hnil ▸ (hhel e.1 e.2).mpr he) ((hhel e'.1 e'.2).mpr he')
    · exact eq_nil_of_get_nil (hnil ▸ (hhel e'.1 e'.2).mpr he') ((hhel e.1 e.2).mpr he)
  · intro hunr
    obtain ⟨state, hstate⟩ := Option.isSome_iff_exists.mp (hpla.mpr
      ⟨hunr.imp fun {e e'} h (_ : e.1 = [] ↔ e'.1 = []) => h, fun e _ held value hhel => by
        cases held <;> simp [look, get, FoldMap.find] at hhel⟩)
    obtain ⟨hgoo, hloo⟩ := places_spec goodChildren_nil hstate
    rw [assemble, hstate, Option.bind_some]
    obtain ⟨children, exact⟩ := state
    cases exact with
    | none => rfl
    | some value =>
      cases children with
      | nil => rfl
      | cons first children =>
        -- What is below the empty path is related to it.
        have hmem : ∀ q held, look (first :: children, some value) q = some held →
            (q, held) ∈ entries := fun q held hq => ((hloo q held).mp hq).resolve_left (by
          cases q <;> simp [look, get, FoldMap.find])
        obtain ⟨path, held, hget⟩ := (hgoo.entries first mem_cons_self).holds
        have hbel : look (first :: children, some value) (first.1 :: path) = some held := by
          rw [look, if_neg (by simp), get_cons, find_cons, if_pos rfl]
          exact hget
        have hsym : Std.Symm fun e e' : List κ × α => Unrelated e.1 e'.1 := ⟨fun _ _ h => h.symm⟩
        have hpai := hunr.forall (hmem [] value rfl) (hmem _ held hbel) (by simp)
        exact absurd nil_prefix hpai.1

theorem assemble_perm {entries' : List (List κ × α)} (h : entries.Perm entries') :
    assemble entries = assemble entries' := by
  have hiff : (assemble entries).isSome = true ↔ (assemble entries').isSome = true := by
    rw [assemble_isSome_iff, assemble_isSome_iff]
    exact h.pairwise_iff fun h => Unrelated.symm h
  cases ht : assemble entries with
  | none =>
    cases ht' : assemble entries' with
    | none => rfl
    | some t' => simp [ht, ht'] at hiff
  | some t =>
    cases ht' : assemble entries' with
    | none => simp [ht, ht'] at hiff
    | some t' =>
      obtain ⟨hwho, hhel⟩ := assemble_spec ht
      obtain ⟨hwho', hhel'⟩ := assemble_spec ht'
      rw [hwho.ext hwho' fun q => Option.ext fun value => by
        rw [hhel, hhel', h.mem_iff]]

mutual

def map (f : α → β) : Trie κ α → Trie κ β
  | Leaf value => Leaf (f value)
  | Node children => Node (map_children f children)

def map_children (f : α → β) : List (κ × Trie κ α) → List (κ × Trie κ β)
  | [] => []
  | (k, t) :: children => (k, t.map f) :: map_children f children

end

omit [LinearOrder κ] in
theorem map_children_eq (f : α → β) (children : List (κ × Trie κ α)) :
    map_children f children = children.map (Prod.map id (map f)) := by
  induction children with
  | nil => rfl
  | cons entry children ih => rw [map_children, ih, map_cons]; rfl

theorem find_map_children (f : α → β) : FoldMap.find id k (map_children f children) =
    (FoldMap.find id k children).map (map f) := by
  rw [map_children_eq]
  exact find_map (g := id) fun _ => rfl

theorem put_map_children (f : α → β) (t : Trie κ α) :
    FoldMap.put id k (t.map f) (map_children f children) =
      map_children f (FoldMap.put id k t children) := by
  rw [map_children_eq, map_children_eq]
  exact put_map (g := id) fun _ => rfl

theorem insert_map (f : α → β) (path : List κ) (value : α) :
    insert (map_children f children) path (f value) =
      (insert children path value).map (map_children f) := by
  induction path generalizing children with
  | nil => rfl
  | cons k rest ih =>
    cases rest with
    | nil =>
      simp only [insert, find_map_children, Option.isSome_map]
      split
      · rfl
      · rw [Option.map_some, ← put_map_children, map]
    | cons next rest =>
      simp only [insert, find_map_children]
      cases hfin : FoldMap.find id k children with
      | none =>
        simp only [Option.map_none, Option.getD_none, Option.map_map, comp_def,
          ← put_map_children, map]
        have hemp := @ih []
        rw [map_children] at hemp
        rw [hemp, Option.map_map]
        rfl
      | some t =>
        cases t with
        | Leaf old => rfl
        | Node child =>
          simp only [Option.map_some, Option.getD_some, map, ih, Option.map_map, comp_def,
            ← put_map_children]

theorem assemble_map (f : α → β) :
    assemble (entries.map fun e => (e.1, f e.2)) = (assemble entries).map (map f) := by
  have hplac : ∀ (state : List (κ × Trie κ α) × Option α) (entry : List κ × α),
      place (map_children f state.1, state.2.map f) (entry.1, f entry.2) =
        (place state entry).map fun s => (map_children f s.1, s.2.map f) := by
    intro state entry
    unfold place
    split
    · simp only [Option.isSome_map]
      split <;> rfl
    · simp only [insert_map, Option.map_map, comp_def]
  have hpla : ∀ (state : List (κ × Trie κ α) × Option α),
      (entries.map fun e => (e.1, f e.2)).foldlM place (map_children f state.1, state.2.map f) =
        (entries.foldlM place state).map fun s => (map_children f s.1, s.2.map f) := by
    induction entries with
    | nil => exact fun _ => rfl
    | cons entry entries ih =>
      intro state
      rw [map_cons, foldlM_cons, foldlM_cons, hplac]
      cases place state entry with
      | none => rfl
      | some state₁ => exact ih state₁
  have hclo : ∀ state : List (κ × Trie κ α) × Option α,
      close (map_children f state.1, state.2.map f) = (close state).map (map f) := by
    rintro ⟨children, exact⟩
    cases exact with
    | none => rfl
    | some value => cases children <;> rfl
  rw [assemble, assemble, show (([] : List (κ × Trie κ β)), (none : Option β)) =
    (map_children f [], Option.map f none) from rfl, hpla ([], none)]
  cases entries.foldlM place (([] : List (κ × Trie κ α)), none) with
  | none => rfl
  | some state => exact hclo state

mutual

def leaves : Trie κ α → List (List κ × α)
  | Leaf value => [([], value)]
  | Node children => leaves_below children

def leaves_below : List (κ × Trie κ α) → List (List κ × α)
  | [] => []
  | (k, t) :: children => t.leaves.map (fun leaf => (k :: leaf.1, leaf.2)) ++ leaves_below children

end

omit [LinearOrder κ] in
theorem leaves_below_eq (children : List (κ × Trie κ α)) : leaves_below children =
    children.flatMap fun entry => entry.2.leaves.map fun leaf => (entry.1 :: leaf.1, leaf.2) := by
  induction children with
  | nil => rfl
  | cons entry children ih => rw [leaves_below, ih, flatMap_cons]

theorem mem_leaves_below (h : FoldMap.Ordered id children)
    (hent : ∀ entry ∈ children, ∀ q value, (q, value) ∈ entry.2.leaves ↔
      entry.2.get q = some value) (q : List κ) (value : α) :
    (q, value) ∈ leaves_below children ↔ (Node children).get q = some value := by
  rw [leaves_below_eq, mem_flatMap]
  constructor
  · rintro ⟨entry, hentr, hlea⟩
    obtain ⟨leaf, hmem, heq⟩ := mem_map.mp hlea
    obtain ⟨rfl, rfl⟩ := Prod.mk.inj heq
    rw [get_cons, find_of_mem h hentr]
    exact (hent entry hentr leaf.1 leaf.2).mp hmem
  · intro hget
    cases q with
    | nil => exact absurd hget (by simp [get])
    | cons k q =>
      obtain ⟨t, hfin, ht⟩ := Option.bind_eq_some_iff.mp hget
      obtain ⟨key, hmem, rfl⟩ := find_mem hfin
      exact ⟨(key, t), hmem, mem_map.mpr ⟨(q, value), (hent _ hmem q value).mpr ht, rfl⟩⟩

theorem Good.mem_leaves (h : t.Good) (q : List κ) (value : α) :
    (q, value) ∈ t.leaves ↔ t.get q = some value := by
  induction h generalizing q value with
  | leaf held => cases q <;> simp [leaves, get, eq_comm]
  | @node children _ hord _ ih =>
    rw [leaves]
    exact mem_leaves_below hord (fun entry hent => ih entry hent) q value

theorem Whole.mem_leaves (h : t.Whole) (q : List κ) (value : α) :
    (q, value) ∈ t.leaves ↔ t.get q = some value := by
  cases t with
  | Leaf held => exact (Good.leaf held).mem_leaves q value
  | Node children =>
    have hgoo : GoodChildren children := h
    rw [leaves]
    exact mem_leaves_below hgoo.ordered
      (fun entry hent => (hgoo.entries entry hent).mem_leaves) q value

theorem nodup_leaves_below (h : FoldMap.Ordered id children)
    (hent : ∀ entry ∈ children, (entry.2.leaves.map Prod.fst).Nodup) :
    ((leaves_below children).map Prod.fst).Nodup := by
  rw [leaves_below_eq, map_flatMap, nodup_flatMap]
  constructor
  · intro entry hentr
    rw [map_map]
    have hinj := (hent entry hentr).map (f := fun path => entry.1 :: path)
      fun _ _ heq => cons_injective heq
    simpa [map_map, comp_def] using hinj
  · refine h.imp fun {entry later} hlt => ?_
    intro path hpat hpat'
    simp only [map_map, mem_map, comp_apply] at hpat hpat'
    obtain ⟨leaf, -, rfl⟩ := hpat
    obtain ⟨leaf', -, heq⟩ := hpat'
    exact absurd (List.cons.inj heq).1 hlt.ne'

theorem Good.nodup_leaves (h : t.Good) : (t.leaves.map Prod.fst).Nodup := by
  induction h with
  | leaf held => simp [leaves]
  | @node children _ hord _ ih =>
    rw [leaves]
    exact nodup_leaves_below hord ih

theorem Whole.nodup_leaves (h : t.Whole) : (t.leaves.map Prod.fst).Nodup := by
  cases t with
  | Leaf held => exact (Good.leaf held).nodup_leaves
  | Node children =>
    have hgoo : GoodChildren children := h
    rw [leaves]
    exact nodup_leaves_below hgoo.ordered fun entry hent => (hgoo.entries entry hent).nodup_leaves

end Trie

end SovereignConfig.Lib
