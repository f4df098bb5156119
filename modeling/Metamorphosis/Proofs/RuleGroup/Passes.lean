import Metamorphosis.Proofs.Arena

namespace Metamorphosis

open CompileM

def MarkedTarget.pair (m : MarkedTarget) : Glyph × Glyph :=
  (m.target, m.replacement)

theorem freeIndex?_eq_some {pattern : List Glyph} {taken : List Nat} {g : Glyph} {i : Nat}
    (h : freeIndex? pattern taken g = some i) : pattern[i]? = some g := by
  obtain ⟨⟨x, j⟩, hf, rfl⟩ := Option.map_eq_some_iff.mp h
  have hx : x = g := by
    have hp := List.find?_some hf
    simp only [Bool.and_eq_true, beq_iff_eq] at hp
    exact hp.1
  rw [← hx]
  exact List.mem_zipIdx_iff_getElem?.mp (List.mem_of_find?_eq_some hf)

theorem freeIndex?_not_mem {pattern : List Glyph} {taken : List Nat} {g : Glyph} {i : Nat}
    (h : freeIndex? pattern taken g = some i) : i ∉ taken := by
  obtain ⟨⟨x, j⟩, hf, rfl⟩ := Option.map_eq_some_iff.mp h
  have hp := List.find?_some hf
  simp only [Bool.and_eq_true, Bool.not_eq_true', List.contains_eq_mem,
    decide_eq_false_iff_not] at hp
  exact hp.2

/-- What marking targets has to do with their substitutions, the pattern and the arena: those after
`first` stand for the substitutions in order, and each has the code of its own key. -/
structure Marks (line ordinal first : Nat) (pattern : List Glyph) (pairs : List (Glyph × Glyph))
    (arena : Arena) (marked : List MarkedTarget) : Prop where
  pairs_eq : marked.map MarkedTarget.pair = pairs
  index_eq : ∀ m ∈ marked, pattern[m.index]? = some m.target
  code_eq : ∀ i m, marked[i]? = some m →
    ∃ code, arena.code? ⟨.multiPass, line, ordinal, first + i⟩ = some code ∧ m.temp = toString code

section Targets

variable {line ordinal : Nat} {pattern : List Glyph} {marked result : List MarkedTarget}
  {pairs : List (Glyph × Glyph)} {s s' : Session}

/-- One more target is marked at a free index and with an answer of the arena. -/
theorem markTargets_cons_ok {p : Glyph × Glyph}
    (h : exec (markTargets line ordinal pattern marked (p :: pairs)) s = (.ok result, s')) :
    ∃ index temp m, freeIndex? pattern (marked.map MarkedTarget.index) p.1 = some index ∧
      exec (temporary ⟨.multiPass, line, ordinal, marked.length⟩) s = (.ok temp, m) ∧
      exec (markTargets line ordinal pattern (marked ++ [⟨p.1, p.2, temp, index⟩]) pairs) m =
        (.ok result, s') := by
  unfold markTargets at h
  split at h
  next => cases h
  next index hi =>
    obtain ⟨temp, m, ht, h⟩ := exec_bind_ok h
    exact ⟨index, temp, m, hi, ht, h⟩

/-- The targets are marked in the order of their substitutions, after those marked already. -/
theorem markTargets_ok
    (h : exec (markTargets line ordinal pattern marked pairs) s = (.ok result, s')) :
    ∃ more, result = marked ++ more ∧ s.arena.Extends s'.arena ∧
      Marks line ordinal marked.length pattern pairs s'.arena more := by
  induction pairs generalizing marked s with
  | nil =>
    cases h
    exact ⟨[], by simp, .refl _, ⟨rfl, by simp, by simp⟩⟩
  | cons p rest ih =>
    obtain ⟨index, temp, m, hi, ht, h⟩ := markTargets_cons_ok h
    obtain ⟨code, hcode, rfl, hext⟩ := exec_temporary_ok ht
    obtain ⟨more, rfl, hext', hmore⟩ := ih h
    refine ⟨⟨p.1, p.2, toString code, index⟩ :: more, by simp, hext.trans hext', ?_, ?_, ?_⟩
    · rw [List.map_cons, hmore.pairs_eq]
      rfl
    · intro m hm
      rcases List.mem_cons.mp hm with rfl | hm
      · exact freeIndex?_eq_some hi
      · exact hmore.index_eq m hm
    · intro i m hm
      cases i with
      | zero =>
        cases hm
        exact ⟨code, hext' _ _ hcode, rfl⟩
      | succ i =>
        have hc := hmore.code_eq i m (by simpa using hm)
        simpa [Nat.add_assoc, Nat.add_comm 1 i] using hc

theorem marks_of_markTargets
    (h : exec (markTargets line ordinal pattern [] pairs) s = (.ok result, s')) :
    Marks line ordinal 0 pattern pairs s'.arena result := by
  obtain ⟨more, hresult, _, hmarks⟩ := markTargets_ok h
  rw [hresult, List.nil_append]
  exact hmarks

/-- No index of the pattern is taken twice. -/
theorem markTargets_indices_nodup
    (h : exec (markTargets line ordinal pattern marked pairs) s = (.ok result, s'))
    (hn : (marked.map MarkedTarget.index).Nodup) : (result.map MarkedTarget.index).Nodup := by
  induction pairs generalizing marked s with
  | nil =>
    cases h
    exact hn
  | cons p rest ih =>
    obtain ⟨index, temp, m, hi, _, h⟩ := markTargets_cons_ok h
    have hfree := freeIndex?_not_mem hi
    refine ih h ?_
    rw [List.map_append, List.map_cons, List.map_nil, List.nodup_append]
    refine ⟨hn, List.pairwise_singleton _ _, ?_⟩
    intro i hmem j hj he
    rw [he, List.mem_singleton.mp hj] at hmem
    exact hfree hmem

/-- Targets that are marked under new keys get the next codes in turn. -/
theorem markTargets_fresh
    (hfresh : ∀ slot, marked.length ≤ slot →
      s.arena.code? ⟨.multiPass, line, ordinal, slot⟩ = none)
    (h : exec (markTargets line ordinal pattern marked pairs) s = (.ok result, s')) :
    s'.arena.keys = s.arena.keys ++ (List.range' marked.length pairs.length).map
        (fun slot => ⟨.multiPass, line, ordinal, slot⟩) ∧
      result.map MarkedTarget.temp = marked.map MarkedTarget.temp ++
        (List.range' s.arena.nextCode pairs.length).map toString := by
  induction pairs generalizing marked s with
  | nil =>
    cases h
    simp
  | cons p rest ih =>
    obtain ⟨index, temp, m, _, ht, h⟩ := markTargets_cons_ok h
    have hnew := hfresh marked.length (Nat.le_refl _)
    obtain ⟨htemp, hbase, hkeys⟩ := exec_temporary_new hnew ht
    have hnext : m.arena.nextCode = s.arena.nextCode + 1 := by
      rw [Arena.nextCode_eq, Arena.nextCode_eq, hbase, hkeys, List.length_append,
        List.length_singleton, Nat.add_assoc]
    have hlater : ∀ slot, marked.length + 1 ≤ slot →
        m.arena.code? ⟨.multiPass, line, ordinal, slot⟩ = none := by
      intro slot hslot
      rw [Arena.code?_eq_none, hkeys, List.mem_append, List.mem_singleton]
      rintro (hmem | hsame)
      · exact Arena.code?_eq_none.mp (hfresh slot (by omega)) hmem
      · have he : slot = marked.length := congrArg TempKey.slot hsame
        omega
    obtain ⟨hkeys', htemps⟩ := ih (by rwa [List.length_append, List.length_singleton]) h
    rw [List.length_append, List.length_singleton] at hkeys'
    rw [List.length_cons, List.range'_succ, List.range'_succ, List.map_cons, List.map_cons]
    constructor
    · rw [hkeys', hkeys, List.append_assoc, List.singleton_append]
    · rw [htemps, hnext, List.map_append, List.append_assoc, List.map_singleton, htemp,
        List.singleton_append]

end Targets

theorem freeIndex?_exists {pattern : List Glyph} {taken : List Nat} {g : Glyph}
    (hg : g ∈ pattern) (hfree : ∀ i ∈ taken, pattern[i]? ≠ some g) :
    ∃ i, freeIndex? pattern taken g = some i := by
  obtain ⟨i, hi⟩ := List.mem_iff_getElem?.mp hg
  rw [← Option.isSome_iff_exists, freeIndex?, Option.isSome_map, List.find?_isSome]
  refine ⟨(g, i), List.mem_zipIdx_iff_getElem?.mpr hi, ?_⟩
  have hn : i ∉ taken := fun ht => hfree i ht hi
  simp [hn]

/-- Distinct targets of a pattern are marked unless the codes are used up. -/
theorem markTargets_error {line ordinal : Nat} {pattern : List Glyph} {marked : List MarkedTarget}
    {pairs : List (Glyph × Glyph)} {e : CompileError} {s s' : Session}
    (hindex : ∀ m ∈ marked, pattern[m.index]? = some m.target)
    (htargets : (marked.map MarkedTarget.target ++ pairs.map Prod.fst).Nodup)
    (hin : ∀ p ∈ pairs, p.1 ∈ pattern)
    (h : exec (markTargets line ordinal pattern marked pairs) s = (.error e, s')) :
    e = .failed (.temporariesExhausted s'.arena.size s'.arena.base) ∧
      s'.arena.nextCode = Arena.maxCode + 1 := by
  induction pairs generalizing marked s with
  | nil => cases h
  | cons p rest ih =>
    obtain ⟨target, replacement⟩ := p
    have hfree : ∀ i ∈ marked.map MarkedTarget.index, pattern[i]? ≠ some target := by
      intro i hi he
      obtain ⟨m, hm, rfl⟩ := List.mem_map.mp hi
      have ht : m.target = target := Option.some.inj ((hindex m hm).symm.trans he)
      exact (List.nodup_append.mp htargets).2.2 m.target (List.mem_map_of_mem hm) target
        List.mem_cons_self ht
    obtain ⟨index, hi⟩ := freeIndex?_exists (hin _ List.mem_cons_self) hfree
    simp only [markTargets, hi] at h
    rcases exec_bind_error h with h | ⟨temp, m, _, h⟩
    · obtain ⟨he, hfull, _⟩ := exec_temporary_error h
      exact ⟨he, hfull⟩
    · refine ih ?_ (by simpa using htargets)
        (fun p hp => hin p (List.mem_cons_of_mem _ hp)) h
      intro m hm
      rcases List.mem_append.mp hm with hm | hm
      · exact hindex m hm
      · rw [List.mem_singleton.mp hm]
        exact freeIndex?_eq_some hi

/-- The three subtables of marked targets and a last substitution. -/
def markedSubtables (line : Nat) (pattern : List Glyph) (marked : List MarkedTarget)
    (last : Glyph × Glyph) : List Subtable :=
  [⟨numbered "multi-pass marking, line " line, .contextual
      (StateTable.marking pattern (marked.map MarkedTarget.index)
        (firstReplacements (marked.map fun m => (m.target, m.temp))))⟩,
    ⟨numbered "multi-pass substitution, line " line, .noncontextual
      (marked.map (fun m => (m.temp, .glyph m.replacement)) ++ [(last.1, .glyph last.2)])⟩,
    ⟨numbered "multi-pass cleanup, line " line, .noncontextual
      (marked.map fun m => (m.temp, .delete))⟩]

/-- The subtables of a rule are made of its marked targets, which alone concern the arena. -/
theorem exec_passes_ok {ordinal : Nat} {r : GlyphRule} {made : List Subtable} {s s' : Session}
    (h : exec (r.passes ordinal) s = (.ok made, s')) :
    ∃ pattern marked last m, r.site = .context (.when pattern) ∧ r.pairs.getLast? = some last ∧
      exec (markTargets r.line ordinal pattern [] r.pairs.dropLast) s = (.ok marked, m) ∧
      s'.arena = m.arena ∧ made = markedSubtables r.line pattern marked last := by
  unfold GlyphRule.passes at h
  split at h
  next pattern hsite =>
    split at h
    next last hlast =>
      obtain ⟨marked, m, hm, h⟩ := exec_bind_ok h
      cases h
      refine ⟨pattern, marked, last, m, hsite, hlast, hm, rfl, ?_⟩
      rw [markedSubtables, ← Merged.entries_ofPairs]
    next => cases h
  next => cases h

/-- A rule that can be matched in several passes is a `when` rule, and its subtables are those of
its marked targets. -/
theorem passes_ok {ordinal : Nat} {r : GlyphRule} {made : List Subtable} {s s' : Session}
    (h : exec (r.passes ordinal) s = (.ok made, s')) :
    ∃ pattern marked pairs last, r.site = .context (.when pattern) ∧ r.pairs = pairs ++ [last] ∧
      Marks r.line ordinal 0 pattern pairs s'.arena marked ∧
      made = markedSubtables r.line pattern marked last := by
  obtain ⟨pattern, marked, last, m, hsite, hlast, hm, harena, hmade⟩ := exec_passes_ok h
  exact ⟨pattern, marked, _, last, hsite, (List.dropLast_append_getLast? last hlast).symm,
    harena ▸ marks_of_markTargets hm, hmade⟩

/-- A `when` rule with distinct targets in its pattern is matched in several passes unless the codes
are used up. -/
theorem passes_error {ordinal : Nat} {r : GlyphRule} {pattern : List Glyph} {e : CompileError}
    {s s' : Session} (hsite : r.site = .context (.when pattern)) (hne : r.pairs ≠ [])
    (htargets : (r.pairs.map Prod.fst).Nodup) (hin : ∀ p ∈ r.pairs, p.1 ∈ pattern)
    (h : exec (r.passes ordinal) s = (.error e, s')) :
    e = .failed (.temporariesExhausted s'.arena.size s'.arena.base) ∧
      s'.arena.nextCode = Arena.maxCode + 1 := by
  have hlast : r.pairs.getLast? = some (r.pairs.getLast hne) := List.getLast?_eq_some_getLast hne
  simp only [GlyphRule.passes, hsite, hlast] at h
  rcases exec_bind_error h with h | ⟨marked, m, _, h⟩
  · refine markTargets_error (by simp) ?_ ?_ h
    · exact htargets.sublist ((List.dropLast_sublist r.pairs).map Prod.fst)
    · exact fun p hp => hin p ((List.dropLast_subset r.pairs) hp)
  · cases h

end Metamorphosis
