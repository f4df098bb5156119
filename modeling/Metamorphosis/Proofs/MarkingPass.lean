import Metamorphosis.Proofs.MultiPass

namespace Metamorphosis

open CompileM StateTable

/-- The match of a pattern reaches the target of a slot at an index of a run: the glyphs up to there
are those of the pattern up to the target. -/
def ReachesSlot (pattern : List Glyph) (pairs : List (Glyph × Glyph)) (run : List Glyph)
    (slot i : Nat) : Prop :=
  ∃ target replacement k, pairs.dropLast[slot]? = some (target, replacement) ∧
    pattern[k]? = some target ∧ k ≤ i ∧ (run.take (i + 1)).drop (i - k) = pattern.take (k + 1)

/-- A piece of a run that is the beginning of the pattern up to a glyph ends in the glyph. -/
theorem slice_eq_take_iff {pattern run : List Glyph} {k i : Nat} {g : Glyph}
    (hk : pattern[k]? = some g) :
    (k ≤ i ∧ (run.take (i + 1)).drop (i - k) = pattern.take (k + 1)) ↔
      run[i]? = some g ∧ pattern.take (k + 1) <:+ run.take (i + 1) := by
  have hlt := (List.getElem?_eq_some_iff.mp hk).1
  constructor
  · rintro ⟨hle, he⟩
    constructor
    · have hend := congrArg (fun piece => piece[k]?) he
      have hsum : i - k + k = i := by omega
      simp only [List.getElem?_drop, hsum] at hend
      rw [List.getElem?_take_of_lt (Nat.lt_succ_self i),
        List.getElem?_take_of_lt (Nat.lt_succ_self k), hk] at hend
      exact hend
    · rw [← he]
      exact List.drop_suffix _ _
  · rintro ⟨hg, hs⟩
    have hi := (List.getElem?_eq_some_iff.mp hg).1
    have hlength : (pattern.take (k + 1)).length = k + 1 := List.length_take_of_le hlt
    have hlength' : (run.take (i + 1)).length = i + 1 := List.length_take_of_le hi
    have hle := hs.length_le
    have he := List.suffix_iff_eq_drop.mp hs
    have hdrop : i + 1 - (k + 1) = i - k := by omega
    rw [hlength, hlength', hdrop] at he
    exact ⟨by omega, he.symm⟩

theorem reachesSlot_iff {pattern : List Glyph} (hp : pattern.Nodup) {pairs : List (Glyph × Glyph)}
    {run : List Glyph} {slot i : Nat} :
    ReachesSlot pattern pairs run slot i ↔ ∃ p, pairs.dropLast[slot]? = some p ∧
      run[i]? = some p.1 ∧ MatchesUpTo pattern run i p.1 := by
  constructor
  · rintro ⟨target, replacement, k, hslot, hk, hmatch⟩
    obtain ⟨hg, hs⟩ := (slice_eq_take_iff hk).mp hmatch
    obtain ⟨hmem, rfl⟩ := (idxOf_eq_iff hp).mpr hk
    exact ⟨(target, replacement), hslot, hg, hmem, hs⟩
  · rintro ⟨p, hslot, hg, hmem, hs⟩
    have hk := (idxOf_eq_iff hp).mp ⟨hmem, rfl⟩
    exact ⟨p.1, p.2, pattern.idxOf p.1, hslot, hk, (slice_eq_take_iff hk).mpr ⟨hg, hs⟩⟩

/-- What becomes of a run if the slots have these codes: a glyph at which the match reaches a slot
becomes the temporary glyph of the slot, and every other glyph is kept. A temporary glyph that is not
in the run stands in the result just where its slot is reached. -/
structure MarksSlots (pattern : List Glyph) (pairs : List (Glyph × Glyph)) (code? : Nat → Option Nat)
    (run result : List Glyph) : Prop where
  length_eq : result.length = run.length
  reached : ∀ slot i, ReachesSlot pattern pairs run slot i →
    ∃ code, code? slot = some code ∧ result[i]? = some (toString code)
  kept : ∀ i, (∀ slot, ¬ReachesSlot pattern pairs run slot i) → result[i]? = run[i]?
  stands_iff : ∀ slot code, code? slot = some code → toString code ∉ run →
    ∀ i : Nat, result[i]? = some (toString code) ↔ ReachesSlot pattern pairs run slot i

/-- If no two slots have one code, a temporary glyph tells its slot. -/
theorem marksSlots_of_injective {pattern : List Glyph} {pairs : List (Glyph × Glyph)}
    {code? : Nat → Option Nat} {run result : List Glyph}
    (hinj : ∀ slot slot' code, code? slot = some code → code? slot' = some code → slot = slot')
    (hlength : result.length = run.length)
    (hreached : ∀ slot i, ReachesSlot pattern pairs run slot i →
      ∃ code, code? slot = some code ∧ result[i]? = some (toString code))
    (hkept : ∀ i, (∀ slot, ¬ReachesSlot pattern pairs run slot i) → result[i]? = run[i]?) :
    MarksSlots pattern pairs code? run result := by
  refine ⟨hlength, hreached, hkept, ?_⟩
  intro slot code hcode hfree i
  constructor
  · intro hresult
    by_cases hn : ∀ slot, ¬ReachesSlot pattern pairs run slot i
    · rw [hkept i hn] at hresult
      exact absurd (List.mem_of_getElem? hresult) hfree
    · obtain ⟨slot', hr⟩ := Classical.not_forall_not.mp hn
      obtain ⟨code', hcode', hresult'⟩ := hreached slot' i hr
      have he : code = code' :=
        toString_nat_injective (Option.some.inj (hresult.symm.trans hresult'))
      rw [hinj slot slot' code hcode (he ▸ hcode')]
      exact hr
  · intro hr
    obtain ⟨code', hcode', hresult⟩ := hreached slot i hr
    rw [Option.some.inj (hcode.symm.trans hcode')]
    exact hresult

section Slots

variable {line ordinal first : Nat} {pattern : List Glyph} {pairs : List (Glyph × Glyph)}
  {arena : Arena} {marked : List MarkedTarget}

/-- Targets at different indices of a pattern without repetition are different. -/
theorem Marks.targets_nodup (h : Marks line ordinal first pattern pairs arena marked)
    (hp : pattern.Nodup) (hindices : (marked.map MarkedTarget.index).Nodup) :
    (marked.map MarkedTarget.target).Nodup := by
  have he : marked.map MarkedTarget.index = (marked.map MarkedTarget.target).map pattern.idxOf := by
    rw [List.map_map]
    apply List.map_congr_left
    intro m hm
    exact ((idxOf_eq_iff hp).mpr (h.index_eq m hm)).2.symm
  rw [he] at hindices
  exact List.Nodup.of_map _ hindices

theorem Marks.getElem?_pairs (h : Marks line ordinal first pattern pairs arena marked)
    (slot : Nat) : pairs[slot]? = marked[slot]?.map MarkedTarget.pair := by
  rw [← h.pairs_eq, List.getElem?_map]

/-- The first pass marks the slots with the codes of their keys. -/
theorem Marks.marksSlots (h : Marks line ordinal 0 pattern pairs.dropLast arena marked)
    (hp : pattern.Nodup) (hne : pattern ≠ []) (hindices : (marked.map MarkedTarget.index).Nodup)
    (run : List Glyph) :
    MarksSlots pattern pairs (fun slot => arena.code? ⟨.multiPass, line, ordinal, slot⟩) run
      ((marking pattern (marked.map MarkedTarget.index)
        (firstReplacements (marked.map fun m => (m.target, m.temp)))).run run) := by
  refine marksSlots_of_injective ?_ (length_run _ run) ?_ ?_
  · intro slot slot' code hcode hcode'
    exact congrArg TempKey.slot (Arena.code?_injective hcode hcode')
  · intro slot i hr
    obtain ⟨p, hslot, hg, hm⟩ := (reachesSlot_iff hp).mp hr
    rw [h.getElem?_pairs] at hslot
    obtain ⟨m, hmarked, rfl⟩ := Option.map_eq_some_iff.mp hslot
    obtain ⟨code, hcode, htemp⟩ := h.code_eq slot m hmarked
    rw [Nat.zero_add] at hcode
    have hmark := markedAs_of_mem (h.targets_nodup hp hindices) (List.mem_of_getElem? hmarked)
    refine ⟨code, hcode, ?_⟩
    rw [h.getElem?_marking hp hne, hg, Option.map_some, if_pos hm, ← htemp, ← hmark]
    rfl
  · intro i hn
    rw [h.getElem?_marking hp hne]
    cases hg : run[i]? with
    | none => rfl
    | some g =>
      rw [Option.map_some, Option.some.injEq]
      split
      next hm =>
        -- a marked target up to which the pattern matches would reach its slot
        apply markedAs_of_not_mem
        intro htarget
        obtain ⟨m, hmem, rfl⟩ := List.mem_map.mp htarget
        obtain ⟨slot, hslot⟩ := List.mem_iff_getElem?.mp hmem
        refine hn slot ((reachesSlot_iff hp).mpr ⟨m.pair, ?_, hg, hm⟩)
        rw [h.getElem?_pairs, hslot, Option.map_some]
      next => rfl

end Slots

/-- The first subtable of a `when` rule over distinct glyphs marks in every run the slots that the
match of the pattern reaches. -/
theorem marking_pass_marks_slots {r : GlyphRule} {pattern : List Glyph} {ordinal : Nat}
    {made : List Subtable} {s s' : Session} (hsite : r.site = .context (.when pattern))
    (hp : pattern.Nodup) (hmulti : r.isMultiPass = true)
    (h : exec (r.passes ordinal) s = (.ok made, s')) :
    ∃ table rest,
      made = ⟨numbered "multi-pass marking, line " r.line, .contextual table⟩ :: rest ∧
      ∀ run, MarksSlots pattern r.pairs
        (fun slot => s'.arena.code? ⟨.multiPass, r.line, ordinal, slot⟩) run (table.run run) := by
  obtain ⟨pattern', marked, last, m, hsite', _, hm, harena, rfl⟩ := exec_passes_ok h
  rw [hsite] at hsite'
  cases hsite'
  have hindices := markTargets_indices_nodup hm List.nodup_nil
  have hmarks := marks_of_markTargets hm
  refine ⟨_, _, rfl, fun run => ?_⟩
  rw [harena]
  refine hmarks.marksSlots hp ?_ hindices run
  -- the first of several targets stands in the pattern
  intro hnil
  have hlength : 0 < marked.length := by
    have hl := congrArg List.length hmarks.pairs_eq
    rw [List.length_map, List.length_dropLast] at hl
    rw [GlyphRule.isMultiPass, decide_eq_true_eq] at hmulti
    omega
  have hindex := hmarks.index_eq _ (List.getElem_mem hlength)
  rw [hnil] at hindex
  cases hindex

/-- A rule that lists its targets in another order than its pattern, on a run with a match cut short,
a whole match and glyphs that stand alone. -/
theorem marking_pass_marks_slots_mixed :
    ∃ table rest s, exec (GlyphRule.passes 0 ⟨.context (.when ["a", "b", "c"]),
        [("c", "x"), ("a", "b"), ("b", "a")], 1, none⟩) (Session.fresh defaultTempBase) =
          (.ok (⟨"multi-pass marking, line 1", .contextual table⟩ :: rest), s) ∧
      table.run ["a", "b", "a", "b", "c", "c", "b"] =
        ["65001", "b", "65001", "b", "65000", "c", "b"] ∧
      MarksSlots ["a", "b", "c"] [("c", "x"), ("a", "b"), ("b", "a")]
        (fun slot => s.arena.code? ⟨.multiPass, 1, 0, slot⟩) ["a", "b", "a", "b", "c", "c", "b"]
        (table.run ["a", "b", "a", "b", "c", "c", "b"]) := by
  obtain ⟨table, rest, hmade, hmarks⟩ := @marking_pass_marks_slots
    ⟨.context (.when ["a", "b", "c"]), [("c", "x"), ("a", "b"), ("b", "a")], 1, none⟩ _ 0 _
    (Session.fresh defaultTempBase) _ rfl (by decide) (by decide) rfl
  cases hmade
  exact ⟨_, _, _, rfl, by decide, hmarks _⟩

/-- The entries that mark targets with codes, one code for each. A target keeps the first of its
codes, so there are as many entries as codes only if no target is listed twice. -/
structure EntersCodes (targets : List Glyph) (codes : List Nat) (entries : List (Glyph × Glyph)) :
    Prop where
  lookup_eq : ∀ g, entries.lookup g = (targets.zip (codes.map toString)).lookup g
  nodup_keys : (entries.map Prod.fst).Nodup
  length_eq_iff : entries.length = codes.length ↔ targets.Nodup
  perm : targets.Nodup → entries.Perm (targets.zip (codes.map toString))

theorem entersCodes_firstReplacements {targets : List Glyph} {codes : List Nat}
    (hlength : targets.length = codes.length) :
    EntersCodes targets codes (firstReplacements (targets.zip (codes.map toString))) := by
  have hkeys : (targets.zip (codes.map toString)).map Prod.fst = targets :=
    List.map_fst_zip (Nat.le_of_eq (by rw [List.length_map, hlength]))
  have hcount : (targets.zip (codes.map toString)).length = codes.length := by
    rw [List.length_zip, List.length_map, hlength, Nat.min_self]
  refine ⟨lookup_firstReplacements _, nodup_keys_firstReplacements _, ?_, ?_⟩
  · rw [← hcount, length_firstReplacements_eq_iff, hkeys]
  · intro hn
    exact firstReplacements_perm (by rwa [hkeys])

section Codes

variable {line ordinal first : Nat} {pattern : List Glyph} {pairs : List (Glyph × Glyph)}
  {arena : Arena} {marked : List MarkedTarget} {codes : List Nat} {s s' : Session}

theorem Marks.entries_eq (h : Marks line ordinal first pattern pairs arena marked)
    (htemps : marked.map MarkedTarget.temp = codes.map toString) :
    marked.map (fun m => (m.target, m.temp)) = (pairs.map Prod.fst).zip (codes.map toString) := by
  rw [h.targets_eq, ← htemps, List.zip_map']

theorem Marks.replacements_eq (h : Marks line ordinal first pattern pairs arena marked)
    (htemps : marked.map MarkedTarget.temp = codes.map toString) :
    marked.map (fun m => (m.temp, Replacement.glyph m.replacement)) =
      ((codes.map toString).zip (pairs.map Prod.snd)).map fun e => (e.1, .glyph e.2) := by
  rw [← h.pairs_eq, ← htemps, List.map_map, List.zip_map', List.map_map]
  rfl

theorem map_temp_delete (htemps : marked.map MarkedTarget.temp = codes.map toString) :
    marked.map (fun m => (m.temp, Replacement.delete)) =
      codes.map fun code => (toString code, .delete) := by
  have hpair := congrArg (List.map fun temp => (temp, Replacement.delete)) htemps
  rw [List.map_map, List.map_map] at hpair
  exact hpair

/-- New slots have the next codes, and there are no others. -/
theorem markTargets_codes
    (hfresh : ∀ slot, s.arena.code? ⟨.multiPass, line, ordinal, slot⟩ = none)
    (h : exec (markTargets line ordinal pattern [] pairs) s = (.ok marked, s')) (slot : Nat) :
    s'.arena.code? ⟨.multiPass, line, ordinal, slot⟩ =
      (List.range' s.arena.nextCode pairs.length)[slot]? := by
  obtain ⟨hkeys, htemps⟩ := markTargets_fresh (fun slot _ => hfresh slot) h
  have hmarks := marks_of_markTargets h
  have htemp := congrArg (fun temps => temps[slot]?) htemps
  simp only [List.map_nil, List.nil_append, List.getElem?_map] at htemp
  cases hm : marked[slot]? with
  | some m =>
    obtain ⟨code, hcode, hname⟩ := hmarks.code_eq slot m hm
    rw [Nat.zero_add] at hcode
    rw [hm, Option.map_some, hname] at htemp
    obtain ⟨code', hcode', he⟩ := Option.map_eq_some_iff.mp htemp.symm
    rw [hcode, hcode', toString_nat_injective he]
  | none =>
    rw [hm, Option.map_none] at htemp
    rw [Option.map_eq_none_iff.mp htemp.symm, Arena.code?_eq_none, hkeys, List.mem_append]
    rintro (hmem | hmem)
    · exact Arena.code?_eq_none.mp (hfresh slot) hmem
    · obtain ⟨slot', hslot', hkey⟩ := List.mem_map.mp hmem
      have hlt := List.mem_range'_1.mp hslot'
      have he : slot' = slot := congrArg TempKey.slot hkey
      have hle := List.getElem?_eq_none_iff.mp (Option.map_eq_none_iff.mp htemp.symm)
      rw [List.length_range'] at hle
      rw [List.length_nil] at hlt
      omega

end Codes

/-- A rule whose slots are new takes as many codes as it has targets but the last, and keeps each
under the key of its slot. The first pass enters the codes, the second replaces each of them by the
replacement of its own target and the last target by its replacement, and the third deletes just
these codes. -/
theorem passes_take_next_codes {r : GlyphRule} {ordinal : Nat} {made : List Subtable}
    {s s' : Session} (hfresh : ∀ slot, s.arena.code? ⟨.multiPass, r.line, ordinal, slot⟩ = none)
    (h : exec (r.passes ordinal) s = (.ok made, s')) :
    ∃ codes table entries last, codes = List.range' s.arena.nextCode (r.pairs.length - 1) ∧
      s'.arena.keys = s.arena.keys ++ (List.range (r.pairs.length - 1)).map
        (fun slot => ⟨.multiPass, r.line, ordinal, slot⟩) ∧
      (∀ slot : Nat, s'.arena.code? ⟨.multiPass, r.line, ordinal, slot⟩ = codes[slot]?) ∧
      r.pairs.getLast? = some last ∧
      made = [
        ⟨numbered "multi-pass marking, line " r.line, .contextual table⟩,
        ⟨numbered "multi-pass substitution, line " r.line, .noncontextual
          (((codes.map toString).zip (r.pairs.dropLast.map Prod.snd)).map
            (fun e => (e.1, .glyph e.2)) ++ [(last.1, .glyph last.2)])⟩,
        ⟨numbered "multi-pass cleanup, line " r.line, .noncontextual
          (codes.map fun code => (toString code, .delete))⟩] ∧
      table.substitutions = [⟨"MarkTemps", entries⟩] ∧
      EntersCodes (r.pairs.dropLast.map Prod.fst) codes entries := by
  obtain ⟨pattern, marked, last, m, _, hlast, hm, harena, hmade⟩ := exec_passes_ok h
  have hmarks := marks_of_markTargets hm
  obtain ⟨hkeys, htemps⟩ := markTargets_fresh (fun slot _ => hfresh slot) hm
  rw [List.map_nil, List.nil_append, List.length_dropLast] at htemps
  rw [markedSubtables, hmarks.entries_eq htemps, hmarks.replacements_eq htemps,
    map_temp_delete htemps] at hmade
  have hlength : (r.pairs.dropLast.map Prod.fst).length =
      (List.range' s.arena.nextCode (r.pairs.length - 1)).length := by
    rw [List.length_map, List.length_dropLast, List.length_range']
  refine ⟨_, _, _, last, rfl, ?_, ?_, hlast, hmade, marking_substitutions,
    entersCodes_firstReplacements hlength⟩
  · rw [harena, hkeys, List.length_nil, List.length_dropLast, List.range_eq_range']
  · intro slot
    rw [harena, markTargets_codes hfresh hm, List.length_dropLast]

/-- An arena that is in use already, and targets in another order than in the pattern. -/
theorem passes_take_next_codes_behind_others :
    ∃ made s s' table entries, exec (temporary ⟨.multiPass, 1, 0, 0⟩)
        (Session.fresh defaultTempBase) = (.ok "65000", s) ∧
      exec (GlyphRule.passes 0 ⟨.context (.when ["a", "b", "c"]),
        [("c", "x"), ("a", "b"), ("b", "a")], 2, none⟩) s = (.ok made, s') ∧
      (∀ slot : Nat, s'.arena.code? ⟨.multiPass, 2, 0, slot⟩ = [65001, 65002][slot]?) ∧
      made = [
        ⟨"multi-pass marking, line 2", .contextual table⟩,
        ⟨"multi-pass substitution, line 2", .noncontextual
          [("65001", .glyph "x"), ("65002", .glyph "b"), ("b", .glyph "a")]⟩,
        ⟨"multi-pass cleanup, line 2", .noncontextual [("65001", .delete), ("65002", .delete)]⟩] ∧
      table.substitutions = [⟨"MarkTemps", entries⟩] ∧
      entries.Perm [("c", "65001"), ("a", "65002")] := by
  have hfresh : ∀ slot, (exec (temporary ⟨.multiPass, 1, 0, 0⟩)
      (Session.fresh defaultTempBase)).2.arena.code? ⟨.multiPass, 2, 0, slot⟩ = none := by
    intro slot
    rw [Arena.code?_eq_none]
    intro hmem
    cases List.mem_singleton.mp hmem
  obtain ⟨codes, table, entries, last, rfl, _, hcodes, hlast, hmade, hentries, henters⟩ :=
    @passes_take_next_codes ⟨.context (.when ["a", "b", "c"]),
      [("c", "x"), ("a", "b"), ("b", "a")], 2, none⟩ 0 _ _ _ hfresh rfl
  cases hlast
  exact ⟨_, _, _, table, entries, rfl, rfl, hcodes, hmade, hentries, henters.perm (by decide)⟩

/-- If a target is listed twice, the second of its codes is taken and deleted but no glyph is marked
with it. -/
theorem passes_repeated_target :
    ∃ table second third s, exec (GlyphRule.passes 0 ⟨.context (.when ["a", "a", "b"]),
        [("a", "x"), ("a", "y"), ("b", "z")], 1, none⟩) (Session.fresh defaultTempBase) =
          (.ok [⟨"multi-pass marking, line 1", .contextual table⟩, second, third], s) ∧
      s.arena.names = ["65000", "65001"] ∧
      table.substitutions = [⟨"MarkTemps", [("a", "65000")]⟩] ∧
      third.body = .noncontextual [("65000", .delete), ("65001", .delete)] :=
  ⟨_, _, _, _, rfl, by decide, by decide, by decide⟩

end Metamorphosis
