import Metamorphosis.Compile
import Metamorphosis.Proofs.Arena
import Metamorphosis.Proofs.GlyphRule.Provenance
import Metamorphosis.Proofs.RuleFile
import Metamorphosis.Proofs.RuleGroup.Grouping
import Metamorphosis.Proofs.RuleGroup.Passes
import Metamorphosis.Proofs.StateTable.Run

namespace Metamorphosis

open CompileM

/-- The group has these subtables in some session. -/
def RuleGroup.Makes (group : RuleGroup) (made : List Subtable) : Prop :=
  ∃ s s', exec group.subtables s = (.ok made, s')

/-- The subtables of groups turn a run into another one, group after group. -/
inductive RewritesAll : List RuleGroup → List Glyph → List Glyph → Prop
  | nil (run : List Glyph) : RewritesAll [] run run
  | cons {group : RuleGroup} {rest : List RuleGroup} {made : List Subtable}
      {run run' : List Glyph} (h : group.Makes made)
      (hrest : RewritesAll rest (Subtable.applyAll made run) run') :
      RewritesAll (group :: rest) run run'

namespace RewritesAll

variable {groups : List RuleGroup} {run run' : List Glyph}

theorem of_exec {perGroup : List (List Subtable)} {s s' : Session}
    (h : exec (groups.mapM RuleGroup.announced) s = (.ok perGroup, s')) (run : List Glyph) :
    RewritesAll groups run (Subtable.applyAll perGroup.flatten run) := by
  induction groups generalizing perGroup s s' run with
  | nil =>
    rw [← exec_pure_ok h]
    exact .nil run
  | cons group groups ih =>
    rw [List.mapM_cons] at h
    obtain ⟨made, m, hmade, h⟩ := exec_bind_ok h
    obtain ⟨rest, m', hrest, h⟩ := exec_bind_ok h
    obtain ⟨m'', hm''⟩ := exec_announced_ok hmade
    rw [← exec_pure_ok h, List.flatten_cons, Subtable.applyAll,
      List.foldl_append]
    exact .cons ⟨s, m'', hm''⟩ (ih hrest _)

theorem split {first second : List RuleGroup} (h : RewritesAll (first ++ second) run run') :
    ∃ mid, RewritesAll first run mid ∧ RewritesAll second mid run' := by
  induction first generalizing run with
  | nil => exact ⟨run, .nil run, h⟩
  | cons group first ih =>
    cases h with
    | cons hmade hrest =>
      obtain ⟨mid, hfirst, hsecond⟩ := ih hrest
      exact ⟨mid, .cons hmade hfirst, hsecond⟩

/-- What the subtables of each group keep true of all glyphs stays true of them. -/
theorem keeps {Q : Glyph → Prop} (h : RewritesAll groups run run')
    (hkeeps : ∀ group ∈ groups, ∀ made, group.Makes made → ∀ run, (∀ g ∈ run, Q g) →
      ∀ g ∈ Subtable.applyAll made run, Q g) (hrun : ∀ g ∈ run, Q g) : ∀ g ∈ run', Q g := by
  induction h with
  | nil => exact hrun
  | cons hmade _ ih =>
    apply ih fun group hgroup => hkeeps group (List.mem_cons_of_mem _ hgroup)
    exact hkeeps _ List.mem_cons_self _ hmade _ hrun

end RewritesAll

namespace RuleGroup

/-- The group has one table, for rules in a context. -/
def isContextual : RuleGroup → Bool
  | .cleanup _ _ => false
  | .multiPass _ _ => false
  | _ => true

theorem makes_contextual {group : RuleGroup} {made : List Subtable}
    (hc : group.isContextual = true) (h : group.Makes made) :
    ∃ description table, made = [⟨description, .contextual table⟩] ∧
      ∀ sub ∈ table.substitutions, sub.entries = firstReplacements (substitutions group.rules) := by
  obtain ⟨s, s', h⟩ := h
  cases group with
  | adjacent side glyph rules =>
    obtain ⟨m, h⟩ := exec_merge_bind_ok h
    cases h
    refine ⟨_, _, rfl, ?_⟩
    cases side <;> exact StateTable.entries_build
  | chain side rules =>
    obtain ⟨length, _, _, h⟩ := exec_bind_ok h
    obtain ⟨m, h⟩ := exec_merge_bind_ok h
    cases h
    refine ⟨_, _, rfl, ?_⟩
    cases side <;> exact StateTable.entries_build
  | between rules =>
    obtain ⟨m, h⟩ := exec_merge_bind_ok h
    cases h
    exact ⟨_, _, rfl, StateTable.entries_build⟩
  | betweenChain first second rules =>
    unfold subtables at h
    dsimp only at h
    by_cases hz : first = 0 ∨ second = 0
    · rw [if_pos hz] at h
      cases h
    · rw [if_neg hz] at h
      obtain ⟨m, h⟩ := exec_merge_bind_ok h
      split at h
      next => cases h
      next =>
        cases h
        exact ⟨_, _, rfl, StateTable.entries_build⟩
  | whole rules =>
    obtain ⟨⟨length, target⟩, _, _, h⟩ := exec_bind_ok h
    obtain ⟨m, h⟩ := exec_merge_bind_ok h
    cases h
    exact ⟨_, _, rfl, StateTable.entries_build⟩
  | cleanup description rules => cases hc
  | multiPass ordinal rule => cases hc

theorem ofKey_isContextual {key : GroupKey} (rules : List GlyphRule)
    (h : ∀ id, key ≠ .cleanup id) : (ofKey rules key).isContextual = true := by
  cases key with
  | adjacent side glyph => rfl
  | chain side length => rfl
  | between first second =>
    unfold ofKey GroupKey.group
    dsimp only
    split <;> rfl
  | whole => rfl
  | cleanup id => exact absurd rfl (h id)

/-- The groups before the cleanups are those of rules in a context. -/
theorem mem_contextGroups {rules : List GlyphRule} {group : RuleGroup}
    (h : group ∈ adjacentGroups .after rules ++ adjacentGroups .before rules ++
      betweenGroups rules ++ wholeGroups rules) :
    group.isContextual = true ∧ group.rules ⊆ rules := by
  rw [adjacentGroups_eq, adjacentGroups_eq, betweenGroups_eq, wholeGroups_eq, ← List.map_append,
    ← List.map_append, ← List.map_append] at h
  obtain ⟨key, hkey, rfl⟩ := List.mem_map.mp h
  refine ⟨ofKey_isContextual rules ?_, ?_⟩
  · rintro id rfl
    simp only [List.mem_append, mem_adjacentKeys, betweenKeys, wholeKeys, mem_single, List.mem_map]
      at hkey
    rcases hkey with ((⟨_, _, _, _, he⟩ | ⟨_, _, _, _, he⟩) | ⟨_, _, he⟩) | ⟨he, _⟩
    · exact GroupKey.beside_ne_cleanup _ _ _ he
    · exact GroupKey.beside_ne_cleanup _ _ _ he
    · cases he
    · cases he
  · rw [rules_ofKey]
    exact List.filter_subset_self _

end RuleGroup

section Phases

variable {P : Glyph → Prop} {rules : List GlyphRule}

/-- Tables in a context bring in only what is wanted or restored. -/
theorem contextual_keeps (hs : Settled P rules) {group : RuleGroup} {made : List Subtable}
    (hg : group.isContextual = true ∧ group.rules ⊆ rules) (h : group.Makes made)
    {run : List Glyph} (hrun : ∀ g ∈ run, P g ∨ Restored rules g) :
    ∀ g ∈ Subtable.applyAll made run, P g ∨ Restored rules g := by
  obtain ⟨description, table, rfl, hentries⟩ := RuleGroup.makes_contextual hg.1 h
  apply StateTable.run_provenance _ hrun
  intro sub hsub e he
  rw [hentries sub hsub] at he
  obtain ⟨r, hr, hp⟩ := List.mem_flatMap.mp (mem_of_mem_firstReplacements he)
  exact (hs r (hg.2 hr) e hp).imp_right fun h => h.2.2

/-- A cleanup brings in replacements of its rules and leaves none of their targets but these. -/
theorem cleanup_effect {description : String} {rules : List GlyphRule} {made : List Subtable}
    (h : (RuleGroup.cleanup description rules).Makes made) {run : List Glyph} {g : Glyph}
    (hg : g ∈ Subtable.applyAll made run) :
    (∃ key, (key, g) ∈ substitutions rules) ∨
      (g ∈ run ∧ g ∉ (substitutions rules).map Prod.fst) := by
  obtain ⟨s, s', h⟩ := h
  obtain ⟨m, h⟩ := exec_merge_bind_ok h
  cases h
  rcases mem_flatMap_replaceGlyph hg with ⟨key, hk⟩ | ⟨hrun, hk⟩
  · obtain ⟨⟨k, r⟩, he, hp⟩ := List.mem_map.mp hk
    cases hp
    exact Or.inl ⟨key, mem_of_mem_firstReplacements he⟩
  · refine Or.inr ⟨hrun, fun hkey => hk ?_⟩
    rw [List.map_map]
    exact mem_keys_firstReplacements.mpr hkey

/-- After cleanups a glyph is a replacement, or was there before and is no target of theirs. -/
theorem cleanups_effect {groups : List RuleGroup} {run run' : List Glyph}
    (hgroups : ∀ group ∈ groups, ∃ description rules, group = .cleanup description rules ∧
      ∀ p ∈ substitutions rules, P p.2)
    (h : RewritesAll groups run run') :
    ∀ g ∈ run', P g ∨ (g ∈ run ∧ ∀ description rules, .cleanup description rules ∈ groups →
      g ∉ (substitutions rules).map Prod.fst) := by
  induction h with
  | nil =>
    intro g hg
    exact Or.inr ⟨hg, fun _ _ h => absurd h List.not_mem_nil⟩
  | cons hmade _ ih =>
    intro g hg
    obtain ⟨description, rules, rfl, hP⟩ := hgroups _ List.mem_cons_self
    rcases ih (fun group hm => hgroups group (List.mem_cons_of_mem _ hm)) g hg with hp | ⟨hmid, hrest⟩
    · exact Or.inl hp
    · rcases cleanup_effect hmade hmid with ⟨key, hk⟩ | ⟨hrun, hkey⟩
      · exact Or.inl (hP (key, g) hk)
      · refine Or.inr ⟨hrun, ?_⟩
        intro description' rules' hm
        rcases List.mem_cons.mp hm with he | hm
        · cases he
          exact hkey
        · exact hrest description' rules' hm

/-- Cleanup rules replace by what is wanted. -/
theorem settled_cleanup (hs : Settled P rules) (id : Option String) :
    ∀ p ∈ substitutions (rules.filter (GlyphRule.isOf (.cleanup id))), P p.2 := by
  intro p hp
  obtain ⟨r, hr, hp⟩ := List.mem_flatMap.mp hp
  obtain ⟨hmem, hof⟩ := List.mem_filter.mp hr
  rcases hs r hmem p hp with hP | ⟨hn, _⟩
  · exact hP
  · rw [(GlyphRule.isOf_cleanup.mp hof).1] at hn
    cases hn

theorem mem_namedCleanups (hs : Settled P rules) {group : RuleGroup}
    (h : group ∈ RuleGroup.namedCleanups rules) :
    ∃ description cleanups, group = .cleanup description cleanups ∧
      ∀ p ∈ substitutions cleanups, P p.2 := by
  rw [RuleGroup.namedCleanups_eq] at h
  obtain ⟨key, hkey, rfl⟩ := List.mem_map.mp h
  obtain ⟨id, _, rfl⟩ := List.mem_map.mp hkey
  exact ⟨_, _, rfl, settled_cleanup hs (some id)⟩

/-- What is restored is a target of one of the cleanups. -/
theorem restored_key {g : Glyph} (h : Restored rules g) :
    ∃ description cleanups, .cleanup description cleanups ∈ RuleGroup.namedCleanups rules ∧
      g ∈ (substitutions cleanups).map Prod.fst := by
  obtain ⟨r, hr, hc, hgroup, hg⟩ := h
  obtain ⟨id, hid⟩ := Option.isSome_iff_exists.mp hgroup
  have hkey : .cleanup (some id) ∈ RuleGroup.namedKeys rules :=
    List.mem_map_of_mem ((mem_sortDistinct precedes_connected).mpr
      (List.mem_filterMap.mpr ⟨r, List.mem_filter.mpr ⟨hr, hc⟩, hid⟩))
  have hof : r ∈ rules.filter (GlyphRule.isOf (.cleanup (some id))) :=
    List.mem_filter.mpr ⟨hr, GlyphRule.isOf_cleanup.mpr ⟨hc, hid⟩⟩
  rw [RuleGroup.namedCleanups_eq]
  refine ⟨_, _, List.mem_map_of_mem hkey, ?_⟩
  obtain ⟨p, hp, rfl⟩ := List.mem_map.mp hg
  exact List.mem_map_of_mem (List.mem_flatMap.mpr ⟨r, hof, hp⟩)

theorem mem_otherCleanups (hs : Settled P rules) {group : RuleGroup}
    (h : group ∈ RuleGroup.otherCleanups rules) :
    ∃ description cleanups, group = .cleanup description cleanups ∧
      ∀ p ∈ substitutions cleanups, P p.2 := by
  rw [RuleGroup.otherCleanups_eq] at h
  obtain ⟨key, hkey, rfl⟩ := List.mem_map.mp h
  obtain ⟨rfl, _⟩ := RuleGroup.mem_single.mp hkey
  exact ⟨_, _, rfl, settled_cleanup hs none⟩

/-- The passes of a rule replace every glyph they mark. -/
theorem passes_keep {ordinal : Nat} {r : GlyphRule} {made : List Subtable}
    (hr : ∀ p ∈ r.pairs, P p.2) (h : (RuleGroup.multiPass ordinal r).Makes made)
    {run : List Glyph} (hrun : ∀ g ∈ run, P g) : ∀ g ∈ Subtable.applyAll made run, P g := by
  obtain ⟨s, s', h⟩ := h
  obtain ⟨pattern, marked, pairs, last, _, hpairs, hmarks, rfl⟩ := passes_ok h
  have hmarked : ∀ m ∈ marked, P m.replacement := by
    intro m hm
    apply hr m.pair
    rw [hpairs, ← hmarks.pairs_eq]
    exact List.mem_append_left _ (List.mem_map_of_mem hm)
  have hlast : P last.2 := hr last (by simp [hpairs])
  -- the marking table brings in temporary glyphs of marked targets
  have hmarking : ∀ g ∈ (StateTable.marking pattern (marked.map MarkedTarget.index)
      (firstReplacements (marked.map fun m => (m.target, m.temp)))).run run,
      P g ∨ g ∈ marked.map MarkedTarget.temp := by
    apply StateTable.run_provenance _ fun g hg => Or.inl (hrun g hg)
    intro sub hsub e he
    rw [StateTable.entries_build sub hsub] at he
    obtain ⟨m, hm, rfl⟩ := List.mem_map.mp (mem_of_mem_firstReplacements he)
    exact Or.inr (List.mem_map_of_mem hm)
  intro g hg
  rcases mem_flatMap_replaceGlyph hg with ⟨key, hk⟩ | ⟨hg, _⟩
  · obtain ⟨m, _, he⟩ := List.mem_map.mp hk
    cases he
  · rcases mem_flatMap_replaceGlyph hg with ⟨key, hk⟩ | ⟨hg, hkeys⟩
    · rcases List.mem_append.mp hk with hk | hk
      · obtain ⟨m, hm, he⟩ := List.mem_map.mp hk
        cases he
        exact hmarked m hm
      · cases List.mem_singleton.mp hk
        exact hlast
    · refine (hmarking g hg).resolve_right fun ht => hkeys ?_
      obtain ⟨m, hm, rfl⟩ := List.mem_map.mp ht
      rw [List.map_append, List.map_map]
      exact List.mem_append_left _ (List.mem_map_of_mem hm)

theorem settled_passes (hs : Settled P rules) {group : RuleGroup}
    (h : group ∈ RuleGroup.passGroups rules) :
    ∃ ordinal r, group = .multiPass ordinal r ∧ ∀ p ∈ r.pairs, P p.2 := by
  obtain ⟨ordinal, r, hmem, htakes, rfl⟩ := RuleGroup.mem_passGroups h
  refine ⟨ordinal, r, rfl, fun p hp => ?_⟩
  rcases hs r hmem p hp with hP | ⟨_, hm, _⟩
  · exact hP
  · rw [(Bool.and_eq_true_iff.mp htakes).1] at hm
    cases hm

/-- All subtables of settled rules, one after the other, bring in only what is wanted. -/
theorem allSubtables_keep (hs : Settled P rules) {made : List Subtable} {s s' : Session}
    (h : exec (GlyphRule.allSubtables rules) s = (.ok made, s')) {run : List Glyph}
    (hrun : ∀ g ∈ run, P g) : ∀ g ∈ Subtable.applyAll made run, P g := by
  obtain ⟨_, _, _, h⟩ := exec_bind_ok h
  obtain ⟨perGroup, _, hper, h⟩ := exec_bind_ok h
  cases h
  obtain ⟨afterPasses, hrest, hothers⟩ := (RewritesAll.of_exec hper run).split
  obtain ⟨afterNamed, hrest, hpasses⟩ := hrest.split
  obtain ⟨afterContext, hcontext, hnamed⟩ := hrest.split
  have hc : ∀ g ∈ afterContext, P g ∨ Restored rules g :=
    hcontext.keeps (fun group hg _ hmade _ => contextual_keeps hs (RuleGroup.mem_contextGroups hg) hmade)
      fun g hg => Or.inl (hrun g hg)
  have hn : ∀ g ∈ afterNamed, P g := by
    intro g hg
    rcases cleanups_effect (fun group => mem_namedCleanups hs) hnamed g hg with hP | ⟨hg, hkeys⟩
    · exact hP
    · refine (hc g hg).resolve_right fun hr => ?_
      obtain ⟨description, cleanups, hm, hk⟩ := restored_key hr
      exact hkeys description cleanups hm hk
  have hp : ∀ g ∈ afterPasses, P g := by
    refine hpasses.keeps (fun group hg made hmade run hrun => ?_) hn
    obtain ⟨ordinal, r, rfl, hr⟩ := settled_passes hs hg
    exact passes_keep hr hmade hrun
  intro g hg
  rcases cleanups_effect (fun group => mem_otherCleanups hs) hothers g hg with hP | ⟨hg, _⟩
  · exact hP
  · exact hp g hg

end Phases

/-- The glyphs that classes list and contextual rules name. -/
def namedGlyphs (classes : List GlyphClass) (rules : List ContextualRule) : List Glyph :=
  ({ classes, contextual := rules } : RuleFile).glyphUses.map GlyphUse.name

/-- What a substitution of a rule stands for is named. -/
theorem supplies_named {classes : List GlyphClass} {registry : Registry}
    (h : Registry.ofClasses classes = .ok registry) {rules : List ContextualRule}
    {rule : ContextualRule} (hrule : rule ∈ rules) {pair : Pair} (hpair : pair ∈ rule.pairs)
    {e : Element} (he : e ∈ [pair.target, pair.replacement]) :
    registry.Supplies (· ∈ namedGlyphs classes rules) e := by
  have hmem : e ∈ rule.pairs.flatMap fun p => [p.target, p.replacement] :=
    List.mem_flatMap.mpr ⟨pair, hpair, he⟩
  have hfile : Registry.ofClasses ({ classes, contextual := rules } : RuleFile).classes =
      .ok registry := h
  exact RuleFile.supplies_glyphNames hfile
    (RuleFile.mem_elements_contextual hrule (List.mem_append_right _ hmem))

/-- Every glyph after the subtables of a document was in the run or is named in a rule or class. -/
theorem compileRules_provenance {classes : List GlyphClass} {config : Config}
    {rules : List ContextualRule} {document : Document} {s s' : Session}
    (h : exec (compileRules ContextualRule.subtables classes config rules) s = (.ok document, s'))
    {run : List Glyph} :
    ∀ g ∈ Subtable.applyAll document.subtables run, g ∈ run ∨ g ∈ namedGlyphs classes rules := by
  unfold compileRules at h
  split at h
  next => cases h
  next registry hr =>
    obtain ⟨made, m, hmade, h⟩ := exec_bind_ok h
    cases h
    obtain ⟨glyphRules, m', hrules, hmade⟩ := exec_bind_ok hmade
    have hs : Settled (fun g => g ∈ run ∨ g ∈ namedGlyphs classes rules) glyphRules := by
      apply ContextualRule.allGlyphRules_settled _ hrules
      intro rule hrule pair hpair
      have hsupplies : ∀ e ∈ [pair.target, pair.replacement],
          registry.Supplies (fun g => g ∈ run ∨ g ∈ namedGlyphs classes rules) e :=
        fun e he glyphs hglyphs g hg =>
          Or.inr (supplies_named hr hrule hpair he glyphs hglyphs g hg)
      exact ⟨hsupplies _ (by simp), hsupplies _ (by simp)⟩
    exact allSubtables_keep hs hmade fun g hg => Or.inl hg

/-- No temporary glyph is left after the subtables of a document, if none is in the run or named in
a rule or class. -/
theorem temporaries_never_leak {classes : List GlyphClass} {config : Config}
    {rules : List ContextualRule} {document : Document} {s : Session}
    (h : exec (compileRules ContextualRule.subtables classes config rules)
      (Session.fresh config.tempBase) = (.ok document, s))
    (hnamed : ∀ g ∈ namedGlyphs classes rules, g ∉ s.arena.names) {run : List Glyph}
    (hrun : ∀ g ∈ run, g ∉ s.arena.names) :
    ∀ g ∈ Subtable.applyAll document.subtables run, g ∉ s.arena.names := by
  intro g hg
  rcases compileRules_provenance h g hg with hg | hg
  · exact hrun g hg
  · exact hnamed g hg

/-- A rule taken apart and a rule in several passes, each with a temporary glyph, and a run in which
the context of the one is a target of the other. -/
theorem temporaries_never_leak_mixed :
    ∃ document s,
      exec (compileRules ContextualRule.subtables [⟨"tone", ["t"]⟩] { feature := "Mixed" }
        [⟨.when [.glyph "e", .classRef "tone", .glyph "e"],
            [⟨.classRef "tone", .glyph "e", none⟩], 1⟩,
          ⟨.when [.glyph "e", .glyph "b"],
            [⟨.glyph "e", .glyph "x", none⟩, ⟨.glyph "b", .glyph "e", none⟩], 2⟩])
        (Session.fresh defaultTempBase) = (.ok document, s) ∧
      s.arena.names = ["65000", "65001"] ∧
      ∀ g ∈ Subtable.applyAll document.subtables ["e", "t", "e", "b", "e", "t", "b"],
        g ∉ s.arena.names := by
  have hmade : ∃ document s,
      exec (compileRules ContextualRule.subtables [⟨"tone", ["t"]⟩] { feature := "Mixed" }
        [⟨.when [.glyph "e", .classRef "tone", .glyph "e"],
            [⟨.classRef "tone", .glyph "e", none⟩], 1⟩,
          ⟨.when [.glyph "e", .glyph "b"],
            [⟨.glyph "e", .glyph "x", none⟩, ⟨.glyph "b", .glyph "e", none⟩], 2⟩])
        (Session.fresh defaultTempBase) = (.ok document, s) ∧
      s.arena.names = ["65000", "65001"] := ⟨_, _, rfl, by decide⟩
  obtain ⟨document, s, h, hnames⟩ := hmade
  refine ⟨document, s, h, hnames, temporaries_never_leak h ?_ ?_⟩
  · rw [hnames]
    decide
  · rw [hnames]
    decide

end Metamorphosis
