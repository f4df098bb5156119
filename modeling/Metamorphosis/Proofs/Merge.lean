import Mathlib.Data.List.Induction
import Metamorphosis.Compile
import Metamorphosis.Proofs.Session

namespace Metamorphosis

section Gathered

variable {α β : Type} {R : List α → α → β → Prop}

/-- What the elements of a list give one after another, each in view of those before it. An element
gives one result if there is one for it, and nothing otherwise. -/
inductive Gathered (R : List α → α → β → Prop) : List α → List β → Prop
  | nil : Gathered R [] []
  | give {xs : List α} {ys : List β} {x : α} {y : β} (h : Gathered R xs ys) (hy : R xs x y) :
    Gathered R (xs ++ [x]) (ys ++ [y])
  | pass {xs : List α} {ys : List β} {x : α} (h : Gathered R xs ys) (hnone : ∀ y, ¬R xs x y) :
    Gathered R (xs ++ [x]) ys

theorem gathered_nil_iff {ys : List β} : Gathered R [] ys ↔ ys = [] := by
  constructor
  · intro h
    generalize hxs : ([] : List α) = xs at h
    cases h with
    | nil => rfl
    | give _ _ => simp at hxs
    | pass _ _ => simp at hxs
  · rintro rfl
    exact .nil

theorem gathered_concat_iff {xs : List α} {x : α} {zs : List β} :
    Gathered R (xs ++ [x]) zs ↔
      (∃ ys y, zs = ys ++ [y] ∧ Gathered R xs ys ∧ R xs x y) ∨
      (Gathered R xs zs ∧ ∀ y, ¬R xs x y) := by
  constructor
  · intro h
    generalize hl : xs ++ [x] = l at h
    cases h with
    | nil => simp at hl
    | give h hy =>
      obtain ⟨rfl, hx⟩ := List.append_inj' hl rfl
      cases hx
      exact .inl ⟨_, _, rfl, h, hy⟩
    | pass h hnone =>
      obtain ⟨rfl, hx⟩ := List.append_inj' hl rfl
      cases hx
      exact .inr ⟨h, hnone⟩
  · rintro (⟨ys, y, rfl, h, hy⟩ | ⟨h, hnone⟩)
    · exact .give h hy
    · exact .pass h hnone

end Gathered

section Replacements

variable {pairs : List (Glyph × Glyph)}

/-- The first pair listed for a target gives it this replacement. -/
def FirstListed (pairs : List (Glyph × Glyph)) (target replacement : Glyph) : Prop :=
  ∃ before after, pairs = before ++ (target, replacement) :: after ∧ target ∉ before.map Prod.fst

theorem firstListed_iff {target replacement : Glyph} :
    FirstListed pairs target replacement ↔ pairs.lookup target = some replacement := by
  rw [List.lookup_eq_some_iff]
  refine exists_congr fun before => exists_congr fun after => and_congr_right fun _ => ?_
  simp only [bne_iff_ne, List.mem_map, not_exists, not_and]
  exact forall_congr' fun p => imp_congr_right fun _ => ne_comm

/-- Another replacement was listed for the target before. -/
def Overruled (before : List (Glyph × Glyph)) (pair : Glyph × Glyph) (c : Conflict) : Prop :=
  c.target = pair.1 ∧ c.replacement = pair.2 ∧ FirstListed before pair.1 c.kept ∧ c.kept ≠ pair.2

/-- The pairs given up are the later ones that differ, as they come. -/
theorem gathered_lost (pairs : List (Glyph × Glyph)) :
    Gathered Overruled pairs (Merged.ofPairs pairs).lost := by
  induction pairs using List.reverseRecOn with
  | nil => exact .nil
  | append_singleton pairs p ih =>
    have hkept : ∀ {c}, Overruled pairs p c → pairs.lookup p.1 = some c.kept :=
      fun hc => firstListed_iff.mp hc.2.2.1
    rw [Merged.ofPairs_concat, Merged.add, Merged.entries_ofPairs, lookup_firstReplacements]
    cases hl : pairs.lookup p.1 with
    | none =>
      refine .pass ih fun c hc => ?_
      cases hl.symm.trans (hkept hc)
    | some kept =>
      dsimp only
      split
      next hsame =>
        refine .pass ih fun c hc => hc.2.2.2 ?_
        rw [← Option.some.inj (hl.symm.trans (hkept hc)), beq_iff_eq.mp hsame]
      next hother =>
        refine .give ih ⟨rfl, rfl, firstListed_iff.mpr hl, ?_⟩
        simpa using hother

theorem mem_firstReplacements_iff {p : Glyph × Glyph} :
    p ∈ firstReplacements pairs ↔ FirstListed pairs p.1 p.2 := by
  rw [firstListed_iff, ← lookup_firstReplacements]
  exact ⟨lookup_of_mem_nodup (nodup_keys_firstReplacements pairs), mem_of_lookup⟩

end Replacements

section Entries

variable {α κ : Type} {key : α → κ}

/-- An entry stays as it is, if none before it has its key. -/
def FirstWith (key : α → κ) (before : List α) (entry kept : α) : Prop :=
  kept = entry ∧ key entry ∉ before.map key

variable [BEq κ] [LawfulBEq κ]

theorem any_key_iff {entries : List α} {entry : α} :
    (entries.any fun other => key other == key entry) = true ↔ key entry ∈ entries.map key := by
  simp only [List.any_eq_true, beq_iff_eq, List.mem_map]

theorem keepFirst_of_mem {kept : List α} {entry : α} (h : key entry ∈ kept.map key) :
    keepFirst key kept entry = kept :=
  if_pos (any_key_iff.mpr h)

theorem keepFirst_of_not_mem {kept : List α} {entry : α} (h : key entry ∉ kept.map key) :
    keepFirst key kept entry = kept ++ [entry] :=
  if_neg fun hany => h (any_key_iff.mp hany)

/-- No key is lost. -/
theorem mem_keys_foldl_keepFirst {entries : List α} {k : κ} :
    k ∈ (entries.foldl (keepFirst key) []).map key ↔ k ∈ entries.map key := by
  induction entries using List.reverseRecOn generalizing k with
  | nil => rfl
  | append_singleton entries entry ih =>
    rw [List.foldl_concat]
    by_cases hk : key entry ∈ (entries.foldl (keepFirst key) []).map key
    · rw [keepFirst_of_mem hk, ih, List.map_append, List.mem_append]
      constructor
      · exact Or.inl
      · rintro (h | h)
        · exact h
        · rw [List.mem_singleton.mp h]
          exact ih.mp hk
    · rw [keepFirst_of_not_mem hk, List.map_append, List.map_append, List.mem_append,
        List.mem_append, ih]

theorem gathered_firstWith_iff {entries kept : List α} :
    Gathered (FirstWith key) entries kept ↔ kept = entries.foldl (keepFirst key) [] := by
  induction entries using List.reverseRecOn generalizing kept with
  | nil => exact gathered_nil_iff
  | append_singleton entries entry ih =>
    rw [List.foldl_concat, gathered_concat_iff]
    by_cases hk : key entry ∈ entries.map key
    · rw [keepFirst_of_mem (mem_keys_foldl_keepFirst.mpr hk), ih]
      constructor
      · rintro (⟨_, _, _, _, _, hfirst⟩ | ⟨h, _⟩)
        · exact absurd hk hfirst
        · exact h
      · exact fun h => .inr ⟨h, fun _ hfirst => hfirst.2 hk⟩
    · rw [keepFirst_of_not_mem (mt mem_keys_foldl_keepFirst.mp hk)]
      constructor
      · rintro (⟨ys, _, rfl, h, rfl, _⟩ | ⟨_, hnone⟩)
        · rw [ih.mp h]
        · exact absurd ⟨rfl, hk⟩ (hnone entry)
      · rintro rfl
        exact .inl ⟨_, entry, rfl, ih.mpr rfl, rfl, hk⟩

end Entries

section Collected

open CompileM

variable {ρ α κ : Type} [BEq κ] {line : ρ → Nat} {entriesOf : ρ → Except RuleFault (List α)}
  {key : α → κ} {event : α → Event} {rules : List ρ}

/-- Collecting goes through the entries of all rules as through one list. -/
theorem returns_collect {perRule : List (List α)}
    (h : List.Forall₂ (fun r entries => entriesOf r = .ok entries) rules perRule) (kept : List α) :
    Returns (collect (fun r => atLine (line r) (entriesOf r)) key event kept rules)
      (perRule.flatten.foldl (keepFirst key) kept) := by
  induction h generalizing kept with
  | nil => exact .pure kept
  | @cons r entries rest restEntries hr _ ih =>
    rw [List.flatten_cons, List.foldl_append]
    have hentries : Returns (atLine (line r) (entriesOf r)) entries := by
      intro s
      exact ⟨s, by rw [hr, exec_atLine_ok]⟩
    exact hentries.bind (.bind (.reportAll _) (ih _))

/-- Rules whose entries are collected all have entries. -/
theorem entries_of_collect_ok {kept result : List α} {s s' : Session}
    (h : exec (collect (fun r => atLine (line r) (entriesOf r)) key event kept rules) s =
      (.ok result, s')) :
    ∃ perRule, List.Forall₂ (fun r entries => entriesOf r = .ok entries) rules perRule := by
  induction rules generalizing kept s with
  | nil => exact ⟨[], .nil⟩
  | cons r rest ih =>
    obtain ⟨entries, m, hentries, h⟩ := exec_bind_ok h
    rw [exec_bind_of_ok (exec_reportAll _ m)] at h
    obtain ⟨perRule, hrest⟩ := ih h
    exact ⟨entries :: perRule, .cons (exec_atLine_inv hentries).1 hrest⟩

/-- One subtable for the entries of all rules, one for each key. -/
def collected (line : ρ → Nat) (entriesOf : ρ → Except RuleFault (List α)) (key : α → κ)
    (event : α → Event) (description : String) (body : List α → Body) (rules : List ρ) :
    CompileM (List Subtable) := do
  let entries ← collect (fun r => atLine (line r) (entriesOf r)) key event [] rules
  let made ← announce ⟨description, body entries⟩
  return [made]

theorem ligature_subtables_eq (registry : Registry) (rules : List LigatureRule) :
    LigatureRule.subtables registry rules =
      collected LigatureRule.line (LigatureRule.entries registry) Prod.snd
        (fun e => .ligatureRepeated e.1 e.2) "ligatures" .ligature rules :=
  rfl

theorem oneToMany_subtables_eq (registry : Registry) (rules : List OneToManyRule) :
    OneToManyRule.subtables registry rules =
      collected OneToManyRule.line (OneToManyRule.entries registry) Prod.fst
        (fun e => .sourceRepeated e.1) "one-to-many" .insertion rules :=
  rfl

theorem returns_collected (line : ρ → Nat) (key : α → κ) (event : α → Event) (description : String)
    (body : List α → Body) {perRule : List (List α)}
    (h : List.Forall₂ (fun r entries => entriesOf r = .ok entries) rules perRule) :
    Returns (collected line entriesOf key event description body rules)
      [⟨description, body (perRule.flatten.foldl (keepFirst key) [])⟩] :=
  .bind (returns_collect h []) (.bind (.announce _) (.pure _))

/-- The subtable is there if all rules have entries, and holds the first for each key. -/
theorem exec_collected_iff [LawfulBEq κ] {description : String} {body : List α → Body}
    {made : List Subtable} {s : Session} :
    (∃ s', exec (collected line entriesOf key event description body rules) s = (.ok made, s')) ↔
      ∃ perRule kept, List.Forall₂ (fun r entries => entriesOf r = .ok entries) rules perRule ∧
        Gathered (FirstWith key) perRule.flatten kept ∧ made = [⟨description, body kept⟩] := by
  constructor
  · rintro ⟨s', h⟩
    obtain ⟨entries, m, hentries, _⟩ := exec_bind_ok h
    obtain ⟨perRule, hper⟩ := entries_of_collect_ok hentries
    obtain ⟨s'', hs⟩ := returns_collected line key event description body hper s
    rw [hs] at h
    obtain ⟨hmade, _⟩ := Prod.mk.inj h
    exact ⟨perRule, _, hper, gathered_firstWith_iff.mpr rfl, (Except.ok.inj hmade).symm⟩
  · rintro ⟨perRule, kept, hper, hkept, rfl⟩
    rw [gathered_firstWith_iff.mp hkept]
    exact returns_collected line key event description body hper s

/-- The first one listed stays. Merging gives one replacement for each target, targets in order,
which is the first listed for it, and reports each later pair that differs, once and in turn. The
ligatures and the insertions of rules are their entries as they come, without those whose
components or whose source an earlier entry has. -/
theorem first_listed_wins :
    (∀ (description : String) (pairs : List (Glyph × Glyph)) (s : Session), ∃ merged lost,
      exec (merge description pairs) s =
        (.ok merged, { s with
          events := s.events ++ (lost.map fun c : Conflict =>
            Event.dropped description c.target c.kept c.replacement).toArray }) ∧
      (merged.map Prod.fst).Pairwise (precedes · · = true) ∧
      (∀ target, target ∈ merged.map Prod.fst ↔ target ∈ pairs.map Prod.fst) ∧
      (∀ p, p ∈ merged ↔ FirstListed pairs p.1 p.2) ∧
      Gathered Overruled pairs lost) ∧
    (∀ (registry : Registry) (rules : List LigatureRule) (made : List Subtable) (s : Session),
      (∃ s', exec (LigatureRule.subtables registry rules) s = (.ok made, s')) ↔
        ∃ perRule kept, List.Forall₂ (fun r entries => r.entries registry = .ok entries) rules
            perRule ∧
          Gathered (FirstWith Prod.snd) perRule.flatten kept ∧
          made = [⟨"ligatures", .ligature kept⟩]) ∧
    (∀ (registry : Registry) (rules : List OneToManyRule) (made : List Subtable) (s : Session),
      (∃ s', exec (OneToManyRule.subtables registry rules) s = (.ok made, s')) ↔
        ∃ perRule kept, List.Forall₂ (fun r entries => r.entries registry = .ok entries) rules
            perRule ∧
          Gathered (FirstWith Prod.fst) perRule.flatten kept ∧
          made = [⟨"one-to-many", .insertion kept⟩]) := by
  refine ⟨?_, ?_, ?_⟩
  · intro description pairs s
    have hmerged := Merged.entries_ofPairs pairs
    refine ⟨_, _, rfl, ?_, ?_, ?_, gathered_lost pairs⟩
    · rw [hmerged]
      exact firstReplacements_pairwise pairs
    · intro target
      rw [hmerged]
      exact mem_keys_firstReplacements
    · intro p
      rw [hmerged]
      exact mem_firstReplacements_iff
  · intro registry rules made s
    rw [ligature_subtables_eq]
    exact exec_collected_iff
  · intro registry rules made s
    rw [oneToMany_subtables_eq]
    exact exec_collected_iff

example : Merged.ofPairs [("b", "x"), ("a", "y"), ("b", "z"), ("b", "x")] =
    ⟨[("a", "y"), ("b", "x")], [⟨"b", "x", "z"⟩]⟩ := by
  decide +kernel

end Collected

end Metamorphosis
