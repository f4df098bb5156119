import Metamorphosis.Proofs.Document.Closed
import Metamorphosis.Proofs.GlyphRule.Whole
import Metamorphosis.Proofs.RuleGroup.Grouping
import Metamorphosis.Proofs.RuleGroup.Shape
import Metamorphosis.Proofs.StateTable.Disjoint

namespace Metamorphosis

open CompileM

/-- Contexts of one length on one side keep out of each other's way: no glyph stands at two
positions of them, and none that stands in one is a target. -/
structure ContextsApart (side : Side) (length : Nat) (rules : List GlyphRule) : Prop where
  unique : ∀ r ∈ rules, ∀ r' ∈ rules, ∀ p p', r.adjacentPattern? side = some p →
    r'.adjacentPattern? side = some p' → p.length = length → p'.length = length →
      ∀ (i j : Nat) (g : Glyph), p[i]? = some g → p'[j]? = some g → i = j
  not_target : ∀ r ∈ rules, ∀ r' ∈ rules, ∀ p p', r.adjacentPattern? side = some p →
    r'.adjacentPattern? side = some p' → p.length = length → p'.length = length →
      ∀ g ∈ p, g ∉ r'.pairs.map Prod.fst

section Chains

variable {side : Side} {length : Nat} {rules : List GlyphRule}

theorem mem_chainPositions (hlength : length ≠ 1) {i : Nat} {g : Glyph} :
    (∃ members, (StateTable.positionGlyphs
        ((rules.filter (GlyphRule.isOf (.chain side length))).filterMap GlyphRule.pattern?)
        length)[i]? = some members ∧ g ∈ members) ↔
      ∃ r ∈ rules, ∃ p, r.adjacentPattern? side = some p ∧ p.length = length ∧ p[i]? = some g := by
  constructor
  · rintro ⟨members, hmembers, hg⟩
    rw [(StateTable.getElem?_positionGlyphs.mp hmembers).2] at hg
    obtain ⟨p, hp, hi⟩ := List.mem_filterMap.mp hg
    obtain ⟨r, hr, hpattern⟩ := List.mem_filterMap.mp hp
    obtain ⟨hr, p', hp', hlen⟩ := (mem_filter_isOf_chain hlength).mp hr
    have he : p' = p := Option.some.inj ((pattern?_of_adjacentPattern? hp').symm.trans hpattern)
    rw [← he] at hi
    exact ⟨r, hr, p', hp', hlen, hi⟩
  · rintro ⟨r, hr, p, hp, hlen, hi⟩
    have hlt : i < length := hlen ▸ (List.getElem?_eq_some_iff.mp hi).1
    refine ⟨_, StateTable.getElem?_positionGlyphs.mpr ⟨hlt, rfl⟩, List.mem_filterMap.mpr ⟨p, ?_, hi⟩⟩
    exact List.mem_filterMap.mpr
      ⟨r, (mem_filter_isOf_chain hlength).mpr ⟨hr, p, hp, hlen⟩, pattern?_of_adjacentPattern? hp⟩

theorem mem_chainTargets (hlength : length ≠ 1) {g : Glyph} :
    g ∈ (firstReplacements
        (substitutions (rules.filter (GlyphRule.isOf (.chain side length))))).map Prod.fst ↔
      ∃ r ∈ rules, ∃ p, r.adjacentPattern? side = some p ∧ p.length = length ∧
        g ∈ r.pairs.map Prod.fst := by
  rw [mem_keys_firstReplacements, substitutions, List.map_flatMap, List.mem_flatMap]
  constructor
  · rintro ⟨r, hr, hg⟩
    obtain ⟨hr, p, hp, hlen⟩ := (mem_filter_isOf_chain hlength).mp hr
    exact ⟨r, hr, p, hp, hlen, hg⟩
  · rintro ⟨r, hr, p, hp, hlen, hg⟩
    exact ⟨r, (mem_filter_isOf_chain hlength).mpr ⟨hr, p, hp, hlen⟩, hg⟩

theorem apart_iff_contextsApart (hlength : length ≠ 1) :
    StateTable.Apart
        (StateTable.positionGlyphs
          ((rules.filter (GlyphRule.isOf (.chain side length))).filterMap GlyphRule.pattern?) length)
        ((firstReplacements
          (substitutions (rules.filter (GlyphRule.isOf (.chain side length))))).map Prod.fst) ↔
      ContextsApart side length rules := by
  constructor
  · intro ha
    constructor
    · intro r hr r' hr' p p' hp hp' hlen hlen' i j g hi hj
      obtain ⟨ms, hms, hg⟩ := (mem_chainPositions hlength).mpr ⟨r, hr, p, hp, hlen, hi⟩
      obtain ⟨ms', hms', hg'⟩ := (mem_chainPositions hlength).mpr ⟨r', hr', p', hp', hlen', hj⟩
      exact ha.unique hms hms' hg hg'
    · intro r hr r' hr' p p' hp hp' hlen hlen' g hg htarget
      obtain ⟨i, hi⟩ := List.mem_iff_getElem?.mp hg
      obtain ⟨ms, hms, hg⟩ := (mem_chainPositions hlength).mpr ⟨r, hr, p, hp, hlen, hi⟩
      exact ha.not_target ms (List.mem_of_getElem? hms) g hg
        ((mem_chainTargets hlength).mpr ⟨r', hr', p', hp', hlen', htarget⟩)
  · intro hc
    constructor
    · intro i j ms ms' g hms hms' hg hg'
      obtain ⟨r, hr, p, hp, hlen, hi⟩ := (mem_chainPositions hlength).mp ⟨ms, hms, hg⟩
      obtain ⟨r', hr', p', hp', hlen', hj⟩ := (mem_chainPositions hlength).mp ⟨ms', hms', hg'⟩
      exact hc.unique r hr r' hr' p p' hp hp' hlen hlen' i j g hi hj
    · intro ms hms g hg htarget
      obtain ⟨i, hi⟩ := List.mem_iff_getElem?.mp hms
      obtain ⟨r, hr, p, hp, hlen, hi⟩ := (mem_chainPositions hlength).mp ⟨ms, hi, hg⟩
      obtain ⟨r', hr', p', hp', hlen', ht⟩ := (mem_chainTargets hlength).mp htarget
      exact hc.not_target r hr r' hr' p p' hp hp' hlen hlen' g (List.mem_of_getElem? hi) ht

end Chains

/-- The classes of a group's table are disjoint, if it is that of a chain with disjoint positions
or not that of whole patterns. -/
theorem RuleGroup.HasTable.classesDisjoint {group : RuleGroup} {table : StateTable}
    (h : group.HasTable table)
    (hchain : ∀ side shared length, group = .chain side shared →
      chainLength side shared = .ok length →
        StateTable.Apart
          (StateTable.positionGlyphs (shared.filterMap GlyphRule.pattern?) length)
          ((firstReplacements (substitutions shared)).map Prod.fst))
    (hwhole : ∀ shared, group ≠ .whole shared) : table.ClassesDisjoint := by
  cases h with
  | adjacent side glyph rules => exact StateTable.adjacent_classesDisjoint side glyph _
  | @chain side rules length hlength =>
    exact StateTable.chain_classesDisjoint_iff.mpr (hchain side rules length rfl hlength)
  | between rules => exact StateTable.between_classesDisjoint _ _ _
  | betweenChain hn hm hshared => exact StateTable.betweenChain_classesDisjoint hshared _
  | whole hshape => exact absurd rfl (hwhole _)
  | marking hmarks => exact StateTable.marking_classesDisjoint _ _ _

/-- The classes of glyph rules without whole patterns are disjoint exactly if the contexts of
several glyphs are. -/
theorem allSubtables_classesDisjoint_iff {rules : List GlyphRule} {made : List Subtable}
    {s s' : Session} (hwhole : ∀ r ∈ rules, r.wholePattern? = none)
    (h : exec (GlyphRule.allSubtables rules) s = (.ok made, s')) :
    (∀ sub ∈ made, ∀ table, sub.body.stateTable? = some table → table.ClassesDisjoint) ↔
      ∀ side length, 2 ≤ length → ContextsApart side length rules := by
  constructor
  · intro hdisjoint side length htwo
    have hne : length ≠ 1 := by omega
    by_cases hsome : ∃ r ∈ rules, r.isOf (.chain side length) = true
    · have hgroup : RuleGroup.ofKey rules (.chain side length) ∈ RuleGroup.ofRules rules :=
        RuleGroup.mem_ofRules.mpr (Or.inl ⟨_, hsome, rfl⟩)
      obtain ⟨ofGroup, before, after, hsub, hmade⟩ := exec_allSubtables_all h _ hgroup
      obtain ⟨found, m, hl, hmade⟩ := exec_bind_ok hmade
      obtain rfl := eq_of_chainLength_filter hsome (exec_inTable_inv hl).1
      obtain ⟨m', hmade⟩ := exec_merge_bind_ok hmade
      have htable := hdisjoint _ (hsub _ (exec_pure_ok hmade ▸ List.mem_singleton_self _)) _ rfl
      exact (apart_iff_contextsApart hne).mp (StateTable.chain_classesDisjoint_iff.mp htable)
    · have hnone : ∀ r ∈ rules, ∀ p, r.adjacentPattern? side = some p → p.length ≠ length :=
        fun r hr p hp hlen =>
          hsome ⟨r, hr, GlyphRule.isOf_chain.mpr ⟨p, hp, hlen, hne⟩⟩
      exact ⟨fun r hr _ _ p _ hp _ hlen => absurd hlen (hnone r hr p hp),
        fun r hr _ _ p _ hp _ hlen => absurd hlen (hnone r hr p hp)⟩
  · intro hapart sub hsub table htable
    obtain ⟨group, hgroup, hgroupTable⟩ := allSubtables_hasTable h sub hsub table htable
    apply hgroupTable.classesDisjoint
    · rintro side shared found rfl hfound
      obtain ⟨length, hsome, rfl⟩ := RuleGroup.chain_mem_ofRules hgroup
      obtain ⟨r, hr, hof⟩ := hsome
      obtain ⟨_, _, _, hne⟩ := GlyphRule.isOf_chain.mp hof
      obtain rfl := eq_of_chainLength_filter ⟨r, hr, hof⟩ hfound
      exact (apart_iff_contextsApart hne).mpr (hapart side found (chainLength_eq_ok.mp hfound).1)
    · rintro shared rfl
      obtain ⟨r, hr, hof⟩ := RuleGroup.whole_mem_ofRules hgroup
      obtain ⟨pattern, hpattern⟩ := GlyphRule.isOf_whole.mp hof
      rw [hwhole r hr] at hpattern
      cases hpattern

/-- In a document the classes of all tables are disjoint exactly if the glyph rules of the file have
their contexts of several glyphs apart: all other tables keep glyphs apart by themselves. -/
theorem classes_disjoint_iff_contextsApart {file : RuleFile} {config : Config}
    {document : Document} {s s' : Session}
    (h : exec (file.compile config) s = (.ok document, s')) :
    ∃ rules, file.Expands s.arena rules ∧
      ((∀ sub ∈ document.subtables, ∀ table, sub.body.stateTable? = some table →
        table.ClassesDisjoint) ↔
          ∀ side length, 2 ≤ length → ContextsApart side length rules) := by
  obtain ⟨rules, made, m, m', hexpands, hmade, htables⟩ :=
    compile_forall_tables (fun w _ => StateTable.rearrangement_classesDisjoint w) h
  have hwhole : ∀ r ∈ rules, r.wholePattern? = none := by
    obtain ⟨registry, before, after, _, _, hrules⟩ := hexpands
    exact ContextualRule.allGlyphRules_wholePattern? hrules
  exact ⟨rules, hexpands, htables.trans (allSubtables_classesDisjoint_iff hwhole hmade)⟩

/-- Six tables, one of them of a chain, all with disjoint classes. -/
theorem classes_disjoint_iff_contextsApart_mixed :
    ∃ document s',
      exec (mixedFile.compile { feature := "Mixed" }) (Session.fresh defaultTempBase) =
        (.ok document, s') ∧
      (∀ sub ∈ document.subtables, ∀ table ∈ sub.body.stateTable?, table.ClassesDisjoint) ∧
      ∃ rules, mixedFile.Expands { base := defaultTempBase } rules ∧
        ((∀ sub ∈ document.subtables, ∀ table, sub.body.stateTable? = some table →
          table.ClassesDisjoint) ↔
            ∀ side length, 2 ≤ length → ContextsApart side length rules) := by
  have hcompile : ∃ document s',
      exec (mixedFile.compile { feature := "Mixed" }) (Session.fresh defaultTempBase) =
        (.ok document, s') ∧
      ∀ sub ∈ document.subtables, ∀ table ∈ sub.body.stateTable?, table.ClassesDisjoint :=
    ⟨_, _, rfl, by decide⟩
  obtain ⟨document, s', hexec, hdisjoint⟩ := hcompile
  exact ⟨document, s', hexec, hdisjoint, classes_disjoint_iff_contextsApart hexec⟩

/-- The rule `after a b: a => x`, whose target is the first glyph of its context. -/
def selfContextFile : RuleFile where
  contextual := [⟨.after [.glyph "a", .glyph "b"], [⟨.glyph "a", .glyph "x", none⟩], 2⟩]

/-- The target is in the classes `Context1` and `Target`, and since it is read as the first, the
rule does nothing where it applies. -/
theorem classes_overlap_in_chain :
    ∃ document s' sub table,
      exec (selfContextFile.compile { feature := "Test" }) (Session.fresh defaultTempBase) =
        (.ok document, s') ∧
      sub ∈ document.subtables ∧ sub.body.stateTable? = some table ∧
      table.Holds "Context1" "a" ∧ table.Holds "Target" "a" ∧ ¬table.ClassesDisjoint ∧
      table.run ["a", "b", "a"] = ["a", "b", "a"] := by
  refine ⟨_, _, _, _, rfl, List.mem_cons_self, rfl, ?_, ?_, ?_, ?_⟩
  · decide
  · decide
  · decide
  · decide

end Metamorphosis
