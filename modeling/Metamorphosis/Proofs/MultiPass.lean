import Metamorphosis.Proofs.RuleGroup.Passes
import Metamorphosis.Proofs.StateTable.Marking
import Metamorphosis.Proofs.StateTable.Run

namespace Metamorphosis

open CompileM StateTable

section Marked

variable {line ordinal first : Nat} {pattern : List Glyph} {pairs : List (Glyph × Glyph)}
  {arena : Arena} {marked : List MarkedTarget} {last : Glyph × Glyph}

/-- Each marked target has a temporary glyph of its own. -/
theorem Marks.temps_nodup (h : Marks line ordinal first pattern pairs arena marked) :
    (marked.map MarkedTarget.temp).Nodup := by
  rw [List.nodup_iff_pairwise_ne, List.pairwise_iff_getElem]
  intro i j hi hj hij he
  rw [List.length_map] at hi hj
  rw [List.getElem_map, List.getElem_map] at he
  obtain ⟨code, hc, ht⟩ := h.code_eq i _ (List.getElem?_eq_getElem hi)
  obtain ⟨code', hc', ht'⟩ := h.code_eq j _ (List.getElem?_eq_getElem hj)
  have hcode : code = code' := toString_nat_injective (ht.symm.trans (he.trans ht'))
  have hkey := Arena.code?_injective hc (hcode ▸ hc')
  have hslot := congrArg TempKey.slot hkey
  simp only at hslot
  omega

theorem Marks.temp_mem_names (h : Marks line ordinal first pattern pairs arena marked)
    {m : MarkedTarget} (hm : m ∈ marked) : m.temp ∈ arena.names := by
  obtain ⟨i, hi⟩ := List.mem_iff_getElem?.mp hm
  obtain ⟨code, hc, ht⟩ := h.code_eq i m hi
  rw [ht]
  exact Arena.mem_names hc

theorem Marks.targets_eq (h : Marks line ordinal first pattern pairs arena marked) :
    pairs.map Prod.fst = marked.map MarkedTarget.target := by
  rw [← h.pairs_eq, List.map_map]
  rfl

/-- The temporary glyph of a marked target; other glyphs stay. -/
def markedAs (marked : List MarkedTarget) (g : Glyph) : Glyph :=
  ((marked.map fun m => (m.target, m.temp)).lookup g).getD g

theorem markedAs_of_not_mem {g : Glyph} (hg : g ∉ marked.map MarkedTarget.target) :
    markedAs marked g = g := by
  rw [markedAs, lookup_eq_none_of_not_mem (by simpa using hg), Option.getD_none]

theorem markedAs_of_mem (hn : (marked.map MarkedTarget.target).Nodup) {m : MarkedTarget}
    (hm : m ∈ marked) : markedAs marked m.target = m.temp := by
  have hkeys : ((marked.map fun m => (m.target, m.temp)).map Prod.fst).Nodup := by
    rw [List.map_map]
    exact hn
  rw [markedAs, lookup_of_mem_nodup hkeys (List.mem_map.mpr ⟨m, hm, rfl⟩), Option.getD_some]

/-- What the first pass makes of the glyph at an index. -/
theorem Marks.getElem?_marking (h : Marks line ordinal first pattern pairs arena marked)
    (hp : pattern.Nodup) (hne : pattern ≠ []) (run : List Glyph) (i : Nat) :
    ((marking pattern (marked.map MarkedTarget.index)
      (firstReplacements (marked.map fun m => (m.target, m.temp)))).run run)[i]? =
    run[i]?.map fun g => if MatchesUpTo pattern run i g then markedAs marked g else g := by
  rw [run_marking_iff hp hne, List.getElem?_mapIdx]
  congr 1
  funext g
  rw [lookup_firstReplacements, ← markedAs]
  by_cases hg : g ∈ marked.map MarkedTarget.target
  · -- a marked target takes its own index, as the pattern has no glyph twice
    obtain ⟨m, hm, rfl⟩ := List.mem_map.mp hg
    have hi := ((idxOf_eq_iff hp).mpr (h.index_eq m hm)).2
    have hmem : pattern.idxOf m.target ∈ marked.map MarkedTarget.index :=
      hi ▸ List.mem_map_of_mem hm
    simp only [hmem, and_true]
  · rw [markedAs_of_not_mem hg, ite_self, ite_self]

/-- The entries of the second pass. -/
def finalPairs (marked : List MarkedTarget) (last : Glyph × Glyph) : List (Glyph × Glyph) :=
  marked.map (fun m => (m.temp, m.replacement)) ++ [last]

theorem finalPairs_entries (marked : List MarkedTarget) (last : Glyph × Glyph) :
    marked.map (fun m => (m.temp, .glyph m.replacement)) ++ [(last.1, .glyph last.2)] =
      (finalPairs marked last).map fun (g, r) => (g, Replacement.glyph r) := by
  simp [finalPairs]

theorem Marks.lookup_temp (h : Marks line ordinal first pattern pairs arena marked)
    {m : MarkedTarget} (hm : m ∈ marked) :
    (finalPairs marked last).lookup m.temp = some m.replacement := by
  have hn : ((marked.map fun m => (m.temp, m.replacement)).map Prod.fst).Nodup := by
    rw [List.map_map]
    exact h.temps_nodup
  rw [finalPairs, List.lookup_append,
    lookup_of_mem_nodup hn (List.mem_map.mpr ⟨m, hm, rfl⟩), Option.some_or]

/-- A glyph of the run is no temporary glyph, so only the last substitution can apply to it. -/
theorem Marks.lookup_finalPairs (h : Marks line ordinal first pattern pairs arena marked)
    {g : Glyph} (hg : g ∉ arena.names) :
    (finalPairs marked last).lookup g = [last].lookup g := by
  have hn : g ∉ (marked.map fun m => (m.temp, m.replacement)).map Prod.fst := by
    intro hk
    rw [List.map_map] at hk
    obtain ⟨m, hm, rfl⟩ := List.mem_map.mp hk
    exact hg (h.temp_mem_names hm)
  rw [finalPairs, List.lookup_append, lookup_eq_none_of_not_mem hn, Option.none_or]

/-- A target that was marked gets its replacement. -/
theorem Marks.lookup_markedAs (h : Marks line ordinal first pattern pairs arena marked)
    (htargets : ((pairs ++ [last]).map Prod.fst).Nodup) {g : Glyph} (hg : g ∉ arena.names) :
    ((finalPairs marked last).lookup (markedAs marked g)).getD (markedAs marked g) =
      ((pairs ++ [last]).lookup g).getD g := by
  by_cases ht : g ∈ marked.map MarkedTarget.target
  · obtain ⟨m, hm, rfl⟩ := List.mem_map.mp ht
    have hpair : m.pair ∈ pairs ++ [last] :=
      List.mem_append_left _ (h.pairs_eq ▸ List.mem_map_of_mem hm)
    have hn : (marked.map MarkedTarget.target).Nodup := by
      rw [List.map_append, h.targets_eq] at htargets
      exact (List.nodup_append.mp htargets).1
    rw [markedAs_of_mem hn hm, h.lookup_temp hm, lookup_of_mem_nodup htargets hpair, Option.getD_some,
      Option.getD_some]
  · have hn : pairs.lookup g = none := lookup_eq_none_of_not_mem (h.targets_eq ▸ ht)
    rw [markedAs_of_not_mem ht, h.lookup_finalPairs hg, List.lookup_append, hn, Option.none_or]

/-- What the first two passes make of a run. -/
theorem Marks.map_marking (h : Marks line ordinal first pattern pairs arena marked)
    (hp : pattern.Nodup) (hne : pattern ≠ [])
    (htargets : ((pairs ++ [last]).map Prod.fst).Nodup) {run : List Glyph}
    (hrun : ∀ g ∈ run, g ∉ arena.names) :
    (((marking pattern (marked.map MarkedTarget.index)
      (firstReplacements (marked.map fun m => (m.target, m.temp)))).run run).map
        fun g => ((finalPairs marked last).lookup g).getD g) =
    run.mapIdx fun i g => if g = last.1 ∨ MatchesUpTo pattern run i g then
      ((pairs ++ [last]).lookup g).getD g else g := by
  apply List.ext_getElem?
  intro i
  rw [List.getElem?_map, h.getElem?_marking hp hne, List.getElem?_mapIdx]
  cases hg : run[i]? with
  | none => rfl
  | some g =>
    have hfree := hrun g (List.mem_of_getElem? hg)
    simp only [Option.map_some, Option.some.injEq]
    by_cases hm : MatchesUpTo pattern run i g
    · rw [if_pos hm, if_pos (Or.inr hm), h.lookup_markedAs htargets hfree]
    · have hsingle := getD_lookup_single last.1 last.2 g
      rw [if_neg hm, h.lookup_finalPairs hfree, hsingle]
      by_cases hl : g = last.1
      · have hlast : (pairs ++ [last]).lookup last.1 = some last.2 :=
          lookup_of_mem_nodup htargets (by simp)
        rw [if_pos hl, if_pos (Or.inl hl), hl, hlast, Option.getD_some]
      · rw [if_neg hl, if_neg (not_or.mpr ⟨hl, hm⟩)]

/-- The three passes together. The third finds no temporary glyph left to delete. -/
theorem Marks.applyAll_eq (h : Marks line ordinal first pattern pairs arena marked)
    (hp : pattern.Nodup) (hne : pattern ≠ [])
    (htargets : ((pairs ++ [last]).map Prod.fst).Nodup)
    (hfresh : ∀ p ∈ pairs ++ [last], p.2 ∉ arena.names) {run : List Glyph}
    (hrun : ∀ g ∈ run, g ∉ arena.names) :
    Subtable.applyAll (markedSubtables line pattern marked last) run =
      run.mapIdx fun i g => if g = last.1 ∨ MatchesUpTo pattern run i g then
        ((pairs ++ [last]).lookup g).getD g else g := by
  simp only [Subtable.applyAll, markedSubtables, List.foldl_cons, List.foldl_nil, Subtable.apply]
  rw [finalPairs_entries, flatMap_replaceGlyph_glyphs, h.map_marking hp hne htargets hrun,
    flatMap_replaceGlyph_of_not_mem]
  intro g hg hkey
  have hfree : g ∉ arena.names := by
    obtain ⟨i, hi⟩ := List.mem_iff_getElem?.mp hg
    rw [List.getElem?_mapIdx] at hi
    obtain ⟨x, hx, he⟩ := Option.map_eq_some_iff.mp hi
    have hfree := hrun x (List.mem_of_getElem? hx)
    rw [← he]
    split
    next =>
      cases hl : (pairs ++ [last]).lookup x with
      | none => exact hfree
      | some r => exact hfresh (x, r) (mem_of_lookup hl)
    next => exact hfree
  rw [List.map_map] at hkey
  obtain ⟨m, hm, he⟩ := List.mem_map.mp hkey
  have ht : m.temp = g := he
  exact hfree (ht ▸ h.temp_mem_names hm)

end Marked

/-- Where the pattern stands in a run it matches up to each of its glyphs. -/
theorem matchesUpTo_of_occurrence {pattern : List Glyph} (hp : pattern.Nodup)
    (before after : List Glyph) {k : Nat} {g : Glyph} (hk : pattern[k]? = some g) :
    MatchesUpTo pattern (before ++ pattern ++ after) (before.length + k) g := by
  obtain ⟨hg, rfl⟩ := (idxOf_eq_iff hp).mpr hk
  have hlt := List.idxOf_lt_length_of_mem hg
  refine ⟨hg, before, ?_⟩
  rw [List.append_assoc, Nat.add_assoc, List.take_length_add_append,
    List.take_append_of_le_length (by omega)]

/-- What becomes of a run: targets inside an occurrence of the pattern are rewritten, and so are
those up to which the pattern matches, whether or not the match is completed, and the last target
wherever it stands; glyphs that are no targets are kept, and of the other targets those up to which
the pattern does not match. No glyph becomes anything but its replacement. -/
structure RewritesMatches (pattern : List Glyph) (pairs : List (Glyph × Glyph))
    (run result : List Glyph) : Prop where
  length_eq : result.length = run.length
  occurrence : ∀ before after, run = before ++ pattern ++ after → ∀ k target replacement,
    pattern[k]? = some target → (target, replacement) ∈ pairs →
      result[before.length + k]? = some replacement
  begun : ∀ (i : Nat) (target replacement : Glyph), run[i]? = some target →
    (target, replacement) ∈ pairs → MatchesUpTo pattern run i target →
      result[i]? = some replacement
  last : ∀ target replacement, pairs.getLast? = some (target, replacement) →
    ∀ i : Nat, run[i]? = some target → result[i]? = some replacement
  kept : ∀ (i : Nat) (g : Glyph), run[i]? = some g →
    g ∉ pairs.map Prod.fst ∨
      (∀ target replacement, pairs.getLast? = some (target, replacement) → g ≠ target) ∧
        ¬MatchesUpTo pattern run i g →
    result[i]? = some g
  replaced : ∀ (i : Nat) (g : Glyph), run[i]? = some g →
    result[i]? = some g ∨ ∃ replacement, (g, replacement) ∈ pairs ∧ result[i]? = some replacement

theorem getElem?_rewritten {pattern : List Glyph} {pairs : List (Glyph × Glyph)}
    (htargets : (pairs.map Prod.fst).Nodup) (last : Glyph) {run : List Glyph} {i : Nat}
    {target replacement : Glyph} (hg : run[i]? = some target)
    (hpair : (target, replacement) ∈ pairs)
    (hm : target = last ∨ MatchesUpTo pattern run i target) :
    (run.mapIdx fun i g =>
      if g = last ∨ MatchesUpTo pattern run i g then (pairs.lookup g).getD g else g)[i]? =
        some replacement := by
  rw [List.getElem?_mapIdx, hg, Option.map_some, if_pos hm, lookup_of_mem_nodup htargets hpair,
    Option.getD_some]

/-- Rewriting the last target everywhere and the others where the pattern matches up to them. -/
theorem rewritesMatches_mapIdx {pattern : List Glyph} (hp : pattern.Nodup)
    {pairs : List (Glyph × Glyph)} (htargets : (pairs.map Prod.fst).Nodup) {last : Glyph × Glyph}
    (hlast : pairs.getLast? = some last) (run : List Glyph) :
    RewritesMatches pattern pairs run (run.mapIdx fun i g =>
      if g = last.1 ∨ MatchesUpTo pattern run i g then (pairs.lookup g).getD g else g) where
  length_eq := by simp
  occurrence := by
    rintro before after rfl k target replacement hk hpair
    have hlt := (List.getElem?_eq_some_iff.mp hk).1
    have hg : (before ++ pattern ++ after)[before.length + k]? = some target := by
      rw [List.append_assoc, List.getElem?_append_right (by omega), Nat.add_sub_cancel_left,
        List.getElem?_append_left hlt, hk]
    exact getElem?_rewritten htargets last.1 hg hpair
      (.inr (matchesUpTo_of_occurrence hp before after hk))
  begun := by
    intro i target replacement hg hpair hm
    exact getElem?_rewritten htargets last.1 hg hpair (.inr hm)
  last := by
    intro target replacement hl i hg
    obtain rfl : last = (target, replacement) := Option.some.inj (hlast.symm.trans hl)
    exact getElem?_rewritten htargets target hg (List.mem_of_getLast? hl) (.inl rfl)
  kept := by
    rintro i g hg (hn | ⟨hl, hm⟩)
    · rw [List.getElem?_mapIdx, hg, Option.map_some, lookup_eq_none_of_not_mem hn, Option.getD_none,
        ite_self]
    · have hne : g ≠ last.1 := hl last.1 last.2 hlast
      rw [List.getElem?_mapIdx, hg, Option.map_some, if_neg (not_or.mpr ⟨hne, hm⟩)]
  replaced := by
    intro i g hg
    rw [List.getElem?_mapIdx, hg, Option.map_some]
    split
    next =>
      cases hl : pairs.lookup g with
      | none => exact Or.inl rfl
      | some replacement => exact Or.inr ⟨replacement, mem_of_lookup hl, rfl⟩
    next => exact Or.inl rfl

/-- A `when` rule over distinct glyphs with several distinct targets in its pattern has three
subtables, unless the codes of temporary glyphs are used up, and they rewrite every run without
temporary glyphs as its matches ask for. -/
theorem passes_rewrite_matches {r : GlyphRule} {pattern : List Glyph}
    (hsite : r.site = .context (.when pattern)) (hp : pattern.Nodup)
    (hmulti : r.isMultiPass = true) (htargets : (r.pairs.map Prod.fst).Nodup)
    (hin : ∀ p ∈ r.pairs, p.1 ∈ pattern) (ordinal : Nat) (s : Session) :
    (∃ s', exec (r.passes ordinal) s =
        (.error (.failed (.temporariesExhausted s'.arena.size s'.arena.base)), s') ∧
      s'.arena.nextCode = Arena.maxCode + 1) ∨
    ∃ made s', exec (r.passes ordinal) s = (.ok made, s') ∧ made.length = 3 ∧
      ((∀ p ∈ r.pairs, p.2 ∉ s'.arena.names) → ∀ run, (∀ g ∈ run, g ∉ s'.arena.names) →
        RewritesMatches pattern r.pairs run (Subtable.applyAll made run)) := by
  cases h : exec (r.passes ordinal) s with
  | mk result s' =>
    cases result with
    | error e =>
      have hne : r.pairs ≠ [] := by
        intro hn
        simp [GlyphRule.isMultiPass, hn] at hmulti
      obtain ⟨rfl, hfull⟩ := passes_error hsite hne htargets hin h
      exact Or.inl ⟨s', rfl, hfull⟩
    | ok made =>
      obtain ⟨pattern', marked, pairs, last, hsite', hpairs, hmarks, rfl⟩ := passes_ok h
      rw [hsite] at hsite'
      cases hsite'
      rw [hpairs] at htargets hin ⊢
      refine Or.inr ⟨_, s', rfl, rfl, fun hfresh run hrun => ?_⟩
      have hne : pattern ≠ [] := List.ne_nil_of_mem (hin last (by simp))
      rw [hmarks.applyAll_eq hp hne htargets hfresh hrun]
      exact rewritesMatches_mapIdx hp htargets (by simp) run

/-- A run with a match cut short, a whole match and two targets that stand alone. -/
theorem passes_rewrite_matches_mixed :
    ∃ made s, exec (GlyphRule.passes 0 ⟨.context (.when ["a", "b", "c"]),
        [("b", "x"), ("a", "b"), ("c", "a")], 1, none⟩) (Session.fresh defaultTempBase) =
          (.ok made, s) ∧
      s.arena.names = ["65000", "65001"] ∧
      RewritesMatches ["a", "b", "c"] [("b", "x"), ("a", "b"), ("c", "a")]
        ["a", "b", "a", "b", "c", "c", "b"]
        (Subtable.applyAll made ["a", "b", "a", "b", "c", "c", "b"]) := by
  have hmade : ∃ made s, exec (GlyphRule.passes 0 ⟨.context (.when ["a", "b", "c"]),
        [("b", "x"), ("a", "b"), ("c", "a")], 1, none⟩) (Session.fresh defaultTempBase) =
          (.ok made, s) ∧
      s.arena.names = ["65000", "65001"] := ⟨_, _, rfl, by decide⟩
  obtain ⟨made, s, h, hnames⟩ := hmade
  refine ⟨made, s, h, hnames, ?_⟩
  have hpasses := passes_rewrite_matches
    (r := ⟨.context (.when ["a", "b", "c"]), [("b", "x"), ("a", "b"), ("c", "a")], 1, none⟩) rfl
    (by decide) (by decide) (by decide) (by decide) 0 (Session.fresh defaultTempBase)
  rcases hpasses with ⟨s', h', _⟩ | ⟨made', s', h', _, hrewrites⟩
  · rw [h] at h'
    cases h'
  · rw [h] at h'
    cases h'
    exact hrewrites (by rw [hnames]; decide) _ (by rw [hnames]; decide)

/-- The passes also rewrite where the pattern does not occur: the last target standing alone, and a
target at which a match only begins. -/
theorem passes_rewrite_outside_matches :
    ∃ made s, exec (GlyphRule.passes 0 ⟨.context (.when ["a", "b"]),
        [("a", "x"), ("b", "y")], 1, none⟩) (Session.fresh defaultTempBase) = (.ok made, s) ∧
      s.arena.names = ["65000"] ∧ ¬["a", "b"] <:+: ["b", "a"] ∧
      Subtable.applyAll made ["b", "a"] = ["y", "x"] :=
  ⟨_, _, rfl, by decide, by decide, by decide⟩

end Metamorphosis
