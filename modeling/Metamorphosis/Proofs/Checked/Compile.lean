import Metamorphosis.Proofs.Checked.SideBySide
import Metamorphosis.Proofs.Checked.StateTable
import Metamorphosis.Proofs.Document.Tables
import Metamorphosis.Proofs.RuleGroup.Grouping
import Metamorphosis.Proofs.RuleGroup.Passes
import Metamorphosis.Proofs.RuleGroup.Shape

namespace Metamorphosis

namespace Checked

open CheckedM (of atLine inTable)

def markTargets (line ordinal : Nat) (pattern : List Glyph) :
    List MarkedTarget → List (Glyph × Glyph) → CheckedM (List MarkedTarget)
  | marked, [] => return marked
  | marked, (target, replacement) :: rest =>
    match freeIndex? pattern (marked.map MarkedTarget.index) target with
    | none => throw (.failed (.multiPassTargetMissing line target))
    | some index => do
      let temp ← temporary ⟨.multiPass, line, ordinal, marked.length⟩
      markTargets line ordinal pattern (marked ++ [⟨target, replacement, temp, index⟩]) rest

def passSubtables (line : Nat) (pattern : List Glyph) (marked : List MarkedTarget)
    (last : Glyph × Glyph) : CheckedM (List Subtable) := do
  let description := numbered "multi-pass marking, line " line
  let entries ← CompileM.merge description (marked.map fun m => (m.target, m.temp))
  let table ← marking pattern (marked.map MarkedTarget.index) entries
  return [
    ⟨description, .contextual table⟩,
    ⟨numbered "multi-pass substitution, line " line, .noncontextual
      (marked.map (fun m => (m.temp, .glyph m.replacement)) ++ [(last.1, .glyph last.2)])⟩,
    ⟨numbered "multi-pass cleanup, line " line, .noncontextual
      (marked.map fun m => (m.temp, .delete))⟩]

def passes (ordinal : Nat) (r : GlyphRule) : CheckedM (List Subtable) :=
  match r.site with
  | .context (.when pattern) =>
    match r.pairs.getLast? with
    | some last => do
      let marked ← markTargets r.line ordinal pattern [] r.pairs.dropLast
      passSubtables r.line pattern marked last
    | none => throw (.failed (.multiPassEmpty r.line))
  | site => throw (.failed (.multiPassContext r.line site.kind))

theorem markTargets_eq (line ordinal : Nat) (pattern : List Glyph) (marked : List MarkedTarget)
    (pairs : List (Glyph × Glyph)) :
    markTargets line ordinal pattern marked pairs =
      of (Metamorphosis.markTargets line ordinal pattern marked pairs) := by
  induction pairs generalizing marked with
  | nil => rfl
  | cons pair rest ih =>
    obtain ⟨target, replacement⟩ := pair
    unfold markTargets Metamorphosis.markTargets
    cases freeIndex? pattern (marked.map MarkedTarget.index) target with
    | none => rfl
    | some index =>
      dsimp only
      rw [temporary_eq]
      exact CheckedM.of_bind fun _ _ _ _ => ih _

theorem passSubtables_eq (line : Nat) {pattern : List Glyph} (h : pattern ≠ [])
    (marked : List MarkedTarget) (last : Glyph × Glyph) :
    passSubtables line pattern marked last =
      of (Metamorphosis.passSubtables line pattern marked last) := by
  refine CheckedM.of_bind fun _ entries _ _ => ?_
  rw [CheckedM.access_bind (marking_eq h _ _)]
  rfl

/-- With two substitutions or more there is a marked target, and it stands in the pattern. -/
theorem passes_eq (ordinal : Nat) {r : GlyphRule} (h : r.isMultiPass = true) :
    passes ordinal r = of (r.passes ordinal) := by
  unfold passes GlyphRule.passes
  rcases hsite : r.site with (pattern | pattern | ⟨first, second⟩ | pattern) | temp
  · rfl
  · rfl
  · rfl
  · dsimp only
    cases r.pairs.getLast? with
    | none => rfl
    | some last =>
      dsimp only
      rw [markTargets_eq]
      refine CheckedM.of_bind fun s marked s' hmarked => ?_
      obtain ⟨_, rfl, -, hmarks⟩ := markTargets_ok hmarked
      have hlength : marked.length = r.pairs.length - 1 := by
        rw [← List.length_dropLast, ← hmarks.pairs_eq, List.length_map]
      have htwo : 1 < r.pairs.length := of_decide_eq_true h
      obtain ⟨m, hm⟩ := List.exists_mem_of_length_pos (show 0 < marked.length by omega)
      have hne : pattern ≠ [] := by
        rintro rfl
        cases hmarks.index_eq m hm
      exact passSubtables_eq r.line hne _ last
  · rfl

def subtables : RuleGroup → CheckedM (List Subtable)
  | .adjacent side glyph rules => do
    let description := side.text ++ " " ++ glyph
    let entries ← CompileM.merge description (substitutions rules)
    let table ← adjacent side glyph entries
    return [⟨description, .contextual table⟩]
  | .chain side rules => do
    let length ← CompileM.inTable (chainLength side rules)
    let description := s!"{side.text}, {length}-glyph context"
    let entries ← CompileM.merge description (substitutions rules)
    let table ← chain side length (rules.filterMap GlyphRule.pattern?) entries
    return [⟨description, .contextual table⟩]
  | .between rules => do
    let entries ← CompileM.merge "between" (substitutions rules)
    let sides := rules.filterMap GlyphRule.sides?
    let table ← between (sides.flatMap Prod.fst) (sides.flatMap Prod.snd) entries
    return [⟨"between", .contextual table⟩]
  | .betweenChain n m rules => do
    let line := (rules.head?.map GlyphRule.line).getD 0
    if n = 0 ∨ m = 0 then throw (.failed (.betweenSideMissing line))
    let description := s!"between, {n}+{m}-glyph context"
    let entries ← CompileM.merge description (substitutions rules)
    let positions ← betweenPositions n m (rules.filterMap GlyphRule.sides?) (entries.map Prod.fst)
    match sharedGlyph? [] positions with
    | some s => throw (.failed (.betweenOverlap line s.glyph s.earlier s.later))
    | none => do
      let table ← betweenChain n m positions entries
      return [⟨description, .contextual table⟩]
  | .whole rules => do
    let (length, target) ← CompileM.inTable (commonShape rules)
    let description := s!"when, {length}-glyph pattern"
    let entries ← CompileM.merge description (substitutions rules)
    let table ← whole length target (rules.filterMap GlyphRule.pattern?) entries
    return [⟨description, .contextual table⟩]
  | .cleanup description rules => RuleGroup.subtables (.cleanup description rules)
  | .multiPass ordinal rule => passes ordinal rule

def announced (group : RuleGroup) : CheckedM (List Subtable) := do
  let made ← subtables group
  of (made.mapM CompileM.announce)

def allSubtables (rules : List GlyphRule) : CheckedM (List Subtable) := do
  CompileM.report (.synthesizing (RuleCounts.ofRules rules))
  let perGroup ← (RuleGroup.ofRules rules).mapM announced
  return perGroup.flatten

/-- A group of one rule has subtables of its own only where the rule takes several passes. -/
theorem subtables_eq {group : RuleGroup}
    (h : ∀ ordinal r, group = .multiPass ordinal r → r.isMultiPass = true) :
    subtables group = of group.subtables := by
  cases group with
  | adjacent side glyph rules =>
    refine CheckedM.of_bind fun _ entries _ _ => ?_
    rw [CheckedM.access_bind (adjacent_eq side glyph entries)]
    rfl
  | chain side rules =>
    refine CheckedM.of_bind fun _ length _ hlength => ?_
    refine CheckedM.of_bind fun _ entries _ _ => ?_
    have htwo := (chainLength_eq_ok.mp (CompileM.exec_inTable_inv hlength).1)
    rw [CheckedM.access_bind (chain_eq side (by omega) _ entries)]
    rfl
  | between rules =>
    refine CheckedM.of_bind fun _ entries _ _ => ?_
    rw [CheckedM.access_bind (between_eq _ _ entries)]
    rfl
  | betweenChain n m rules =>
    unfold subtables RuleGroup.subtables
    dsimp only
    by_cases hzero : n = 0 ∨ m = 0
    · rw [if_pos hzero, if_pos hzero]
      rfl
    · rw [if_neg hzero, if_neg hzero]
      refine CheckedM.of_bind fun _ entries _ _ => ?_
      rw [CheckedM.access_bind (betweenPositions_eq n m _ _)]
      cases sharedGlyph? [] (StateTable.betweenPositions n m (rules.filterMap GlyphRule.sides?)
        (entries.map Prod.fst)) with
      | some shared => rfl
      | none =>
        dsimp only
        rw [CheckedM.access_bind (betweenChain_eq (by omega) (by omega) _ entries)]
        rfl
  | whole rules =>
    refine CheckedM.of_bind fun _ shape _ hshape => ?_
    obtain ⟨length, target⟩ := shape
    refine CheckedM.of_bind fun _ entries _ _ => ?_
    have htwo := two_le_of_commonShape (CompileM.exec_inTable_inv hshape).1
    rw [CheckedM.access_bind (whole_eq (by omega) target _ entries)]
    rfl
  | cleanup description rules => rfl
  | multiPass ordinal r => exact passes_eq ordinal (h ordinal r rfl)

theorem allSubtables_eq (rules : List GlyphRule) :
    allSubtables rules = of (GlyphRule.allSubtables rules) := by
  have hannounced : ∀ group ∈ RuleGroup.ofRules rules, announced group = of group.announced := by
    intro group hgroup
    have hmulti : ∀ ordinal r, group = .multiPass ordinal r → r.isMultiPass = true := by
      rintro ordinal r rfl
      rcases RuleGroup.mem_ofRules.mp hgroup with ⟨key, -, hkey⟩ | hpass
      · exact absurd hkey.symm (RuleGroup.ofKey_ne_multiPass rules key ordinal r)
      · obtain ⟨_, _, _, htakes, he⟩ := RuleGroup.mem_passGroups hpass
        cases he
        exact (Bool.and_eq_true _ _ ▸ htakes).1
    unfold announced
    rw [subtables_eq hmulti]
    exact CheckedM.of_bind fun _ _ _ _ => rfl
  refine CheckedM.of_bind fun _ _ _ _ => ?_
  rw [CheckedM.mapM_of hannounced]
  exact CheckedM.of_bind fun _ _ _ _ => rfl

def collect {ρ α κ : Type} [BEq κ] (entriesOf : ρ → CheckedM (List α)) (key : α → κ)
    (event : α → Event) : List α → List ρ → CheckedM (List α)
  | kept, [] => return kept
  | kept, rule :: rest => do
    let entries ← entriesOf rule
    CompileM.reportAll ((repeated key kept entries).map event)
    collect entriesOf key event (entries.foldl (keepFirst key) kept) rest

def ligatureSubtables (registry : Registry) (rules : List LigatureRule) :
    CheckedM (List Subtable) := do
  let entries ← collect (fun r : LigatureRule => atLine r.line (ligatureEntries registry r))
    Prod.snd (fun e => .ligatureRepeated e.1 e.2) [] rules
  let made ← CompileM.announce ⟨"ligatures", .ligature entries⟩
  return [made]

def oneToManySubtables (registry : Registry) (rules : List OneToManyRule) :
    CheckedM (List Subtable) := do
  let entries ← collect (fun r : OneToManyRule => atLine r.line (oneToManyEntries registry r))
    Prod.fst (fun e => .sourceRepeated e.1) [] rules
  let made ← CompileM.announce ⟨"one-to-many", .insertion entries⟩
  return [made]

def contextualSubtables (registry : Registry) (rules : List ContextualRule) :
    CheckedM (List Subtable) := do
  allSubtables (← allGlyphRules registry rules)

def reorderSubtables (registry : Registry) (rules : List ReorderRule) :
    CheckedM (List Subtable) := do
  let windows ← allWindows registry rules
  windows.mapM fun w => do
    let table ← rearrangement w
    CompileM.announce ⟨"rearrangement " ++ w.text, .rearrangement table⟩

def ifAny {ρ : Type} (subtables : List ρ → CheckedM (List Subtable)) (rules : List ρ) :
    CheckedM (List Subtable) :=
  if rules.isEmpty then return [] else subtables rules

/-- The text of the document of a rule file. -/
def generate (file : RuleFile) (config : Config) : CheckedM String :=
  match Registry.ofClasses file.classes with
  | .error fault => throw (.invalidRule none fault)
  | .ok registry => do
    let simple ← Metamorphosis.ifAny (SimpleRule.subtables registry) file.simple
    let ligatures ← ifAny (ligatureSubtables registry) file.ligature
    let oneToMany ← ifAny (oneToManySubtables registry) file.oneToMany
    let contextual ← ifAny (contextualSubtables registry) file.contextual
    let reorder ← ifAny (reorderSubtables registry) file.reorder
    let document : Document :=
      { config, subtables := simple ++ ligatures ++ oneToMany ++ contextual ++ reorder }
    CompileM.report (.generated document.size config (← get).arena.size)
    return document.render

/-- The text of the document of glyph rules on their own. -/
def synthesize (config : Config) (rules : List GlyphRule) : CheckedM String := do
  return Document.render { config, subtables := ← allSubtables rules }

theorem collect_eq {ρ α κ : Type} [BEq κ] {entriesOf : ρ → CheckedM (List α)}
    {entriesOf' : ρ → CompileM (List α)} (h : ∀ r, entriesOf r = of (entriesOf' r)) (key : α → κ)
    (event : α → Event) (kept : List α) (rules : List ρ) :
    collect entriesOf key event kept rules =
      of (CompileM.collect entriesOf' key event kept rules) := by
  induction rules generalizing kept with
  | nil => rfl
  | cons rule rest ih =>
    unfold collect CompileM.collect
    rw [h rule]
    exact CheckedM.of_bind fun _ _ _ _ => CheckedM.of_bind fun _ _ _ _ => ih _

theorem ligatureSubtables_eq (registry : Registry) (rules : List LigatureRule) :
    ligatureSubtables registry rules = of (LigatureRule.subtables registry rules) := by
  unfold ligatureSubtables
  rw [collect_eq fun r => by rw [ligatureEntries_eq, CheckedM.atLine_ofExcept]]
  exact CheckedM.of_bind fun _ _ _ _ => CheckedM.of_bind fun _ _ _ _ => rfl

theorem oneToManySubtables_eq (registry : Registry) (rules : List OneToManyRule) :
    oneToManySubtables registry rules = of (OneToManyRule.subtables registry rules) := by
  unfold oneToManySubtables
  rw [collect_eq fun r => by rw [oneToManyEntries_eq, CheckedM.atLine_ofExcept]]
  exact CheckedM.of_bind fun _ _ _ _ => CheckedM.of_bind fun _ _ _ _ => rfl

theorem contextualSubtables_eq (registry : Registry) (rules : List ContextualRule) :
    contextualSubtables registry rules = of (ContextualRule.subtables registry rules) := by
  unfold contextualSubtables
  rw [allGlyphRules_eq]
  exact CheckedM.of_bind fun _ _ _ _ => allSubtables_eq _

theorem reorderSubtables_eq (registry : Registry) (rules : List ReorderRule) :
    reorderSubtables registry rules = of (ReorderRule.subtables registry rules) := by
  unfold reorderSubtables
  rw [allWindows_eq]
  refine CheckedM.of_bind fun _ windows _ hwindows => ?_
  refine CheckedM.mapM_of fun w hw => ?_
  have htwo : 2 ≤ w.before.length := by
    obtain ⟨rule, _, ofRule, _, _, hmem, hmade⟩ := allWindows_ok hwindows w hw
    exact windows_length hmade w hmem
  rw [CheckedM.access_bind (rearrangement_eq (List.ne_nil_of_length_pos (by omega)))]
  rfl

theorem ifAny_eq {ρ : Type} {subtables : List ρ → CheckedM (List Subtable)}
    {subtables' : List ρ → CompileM (List Subtable)} (rules : List ρ)
    (h : subtables rules = of (subtables' rules)) :
    ifAny subtables rules = of (Metamorphosis.ifAny subtables' rules) := by
  unfold ifAny Metamorphosis.ifAny
  rw [h]
  cases rules.isEmpty <;> rfl

theorem generate_eq (file : RuleFile) (config : Config) :
    generate file config = of (Document.render <$> file.compile config) := by
  unfold generate RuleFile.compile
  cases Registry.ofClasses file.classes with
  | error fault => rfl
  | ok registry =>
    dsimp only
    rw [ifAny_eq _ (ligatureSubtables_eq registry _), ifAny_eq _ (oneToManySubtables_eq registry _),
      ifAny_eq _ (contextualSubtables_eq registry _), ifAny_eq _ (reorderSubtables_eq registry _)]
    simp only [map_bind]
    refine CheckedM.of_bind fun _ _ _ _ => ?_
    refine CheckedM.of_bind fun _ _ _ _ => ?_
    refine CheckedM.of_bind fun _ _ _ _ => ?_
    refine CheckedM.of_bind fun _ _ _ _ => ?_
    refine CheckedM.of_bind fun _ _ _ _ => ?_
    rfl

theorem synthesize_eq (config : Config) (rules : List GlyphRule) :
    synthesize config rules = of (GlyphRule.synthesize config rules) := by
  unfold synthesize
  rw [allSubtables_eq]
  exact CheckedM.of_bind fun _ _ _ _ => rfl

end Checked

/-- Whatever the rules, the configuration and the session, all accesses on the way to a text are in
range: there is a text or an error, the same as without the checks. -/
theorem accesses_in_range (config : Config) (s : Session) :
    (∀ file : RuleFile, (Checked.generate file config).exec s =
      some ((Document.render <$> file.compile config).exec s)) ∧
    ∀ rules : List GlyphRule, (Checked.synthesize config rules).exec s =
      some ((GlyphRule.synthesize config rules).exec s) := by
  constructor
  · intro file
    rw [Checked.generate_eq, CheckedM.exec_of]
  · intro rules
    rw [Checked.synthesize_eq, CheckedM.exec_of]

end Metamorphosis
