import Metamorphosis.Proofs.Growth
import Metamorphosis.Proofs.Source.WellFormed

namespace Metamorphosis

/-- The fault is that a class, a side of a rule or a list of substitutions is empty. Patterns and
ligatures that are too short are another matter: there may be one element. -/
def RuleFault.saysEmpty : RuleFault → Bool
  | .emptyClass _ => true
  | .noSubstitutions => true
  | .emptyContext _ => true
  | .noTargets _ => true
  | .reorderCounts before after => before == 0 || after == 0
  | .reorderLength count => count == 0
  | _ => false

section Results

variable {α β : Type}

/-- No fault of the computation is that something is empty. -/
def Filled (x : Except RuleFault α) : Prop :=
  ∀ fault, x = .error fault → fault.saysEmpty = false

theorem filled_ok (a : α) : Filled (.ok a) := by
  intro fault h
  cases h

theorem filled_error {fault : RuleFault} (h : fault.saysEmpty = false) :
    Filled (.error fault : Except RuleFault α) := by
  intro fault' h'
  cases h'
  exact h

theorem Filled.bind {x : Except RuleFault α} {f : α → Except RuleFault β} (hx : Filled x)
    (hf : ∀ a, x = .ok a → Filled (f a)) : Filled (x >>= f) := by
  cases x with
  | error fault => exact filled_error (hx fault rfl)
  | ok a => exact hf a rfl

theorem filled_mapM {f : α → Except RuleFault β} {xs : List α} (hf : ∀ x ∈ xs, Filled (f x)) :
    Filled (xs.mapM f) := by
  induction xs with
  | nil => exact filled_ok []
  | cons x xs ih =>
    rw [List.mapM_cons]
    refine (hf x List.mem_cons_self).bind fun y _ => ?_
    refine (ih fun x' hx' => hf x' (List.mem_cons_of_mem x hx')).bind fun ys _ => ?_
    exact filled_ok _

end Results

section Registry

theorem filled_insert (registry : Registry) {c : GlyphClass} (h : c.glyphs ≠ []) :
    Filled (registry.insert c) := by
  unfold Registry.insert
  split
  next => exact filled_error rfl
  next => exact filled_ok _

theorem filled_ofClasses {classes : List GlyphClass} (h : ∀ c ∈ classes, c.glyphs ≠ []) :
    Filled (Registry.ofClasses classes) := by
  unfold Registry.ofClasses
  generalize Registry.empty = registry
  induction classes generalizing registry with
  | nil => exact filled_ok registry
  | cons c classes ih =>
    obtain ⟨hc, hclasses⟩ := List.forall_mem_cons.mp h
    rw [List.foldlM_cons]
    exact (filled_insert registry hc).bind fun next _ => ih hclasses next

variable (registry : Registry)

theorem filled_glyphsOf (e : Element) : Filled (registry.glyphsOf e) := by
  unfold Registry.glyphsOf
  split
  next => exact filled_ok _
  next =>
    split
    next => exact filled_ok _
    next => exact filled_error rfl

theorem filled_positionsOf (elements : List Element) : Filled (registry.positionsOf elements) :=
  filled_mapM fun e _ => filled_glyphsOf registry e

end Registry

section Entries

variable (registry : Registry)

theorem SimpleRule.filled_entries (r : SimpleRule) : Filled (r.entries registry) := by
  refine (filled_glyphsOf registry _).bind fun targets _ => ?_
  refine (filled_glyphsOf registry _).bind fun replacements _ => ?_
  split
  next => exact filled_ok _
  next => exact filled_error rfl

theorem filled_sideBySide (head : Element) (parts : List Element)
    {fault : Nat → Nat → RuleFault} (hfault : ∀ a b, (fault a b).saysEmpty = false) :
    Filled (sideBySide registry head parts fault) := by
  refine (filled_glyphsOf registry _).bind fun heads _ => ?_
  refine (filled_positionsOf registry _).bind fun positions _ => ?_
  split
  next => exact filled_ok _
  next a b _ => exact filled_error (hfault a b)

theorem LigatureRule.filled_entries (r : LigatureRule) : Filled (r.entries registry) := by
  unfold LigatureRule.entries
  dsimp only
  split
  next => exact filled_error rfl
  next => exact filled_sideBySide registry _ _ fun _ _ => rfl

theorem OneToManyRule.filled_entries {r : OneToManyRule} (h : r.targets ≠ []) :
    Filled (r.entries registry) := by
  unfold OneToManyRule.entries
  dsimp only
  split
  next hempty => exact absurd (List.isEmpty_iff.mp hempty) h
  next => exact filled_sideBySide registry _ _ fun _ _ => rfl

end Entries

section Expansion

variable (registry : Registry)

theorem Pair.filled_glyphs (p : Pair) : Filled (p.glyphs registry) := by
  refine (filled_glyphsOf registry _).bind fun targets _ => ?_
  refine (filled_glyphsOf registry _).bind fun replacements _ => ?_
  split
  next => exact filled_ok _
  next => exact filled_error rfl

namespace ContextualRule

theorem filled_inContexts (rule : ContextualRule) (contexts : List (Context Glyph)) :
    Filled (rule.inContexts registry contexts) := by
  refine Filled.bind (filled_mapM fun pair _ => ?_) fun _ _ => filled_ok _
  exact (pair.filled_glyphs registry).bind fun _ _ => filled_ok _

theorem filled_adjacentRules (rule : ContextualRule) (side : Side) {pattern : List Element}
    (h : pattern ≠ []) : Filled (rule.adjacentRules registry side pattern) := by
  have hchoices : Filled (contextChoices registry (.adjacent side) pattern) := by
    unfold contextChoices
    dsimp only
    split
    next hempty => exact absurd (List.isEmpty_iff.mp hempty) h
    next => exact (filled_positionsOf registry _).bind fun _ _ => filled_ok _
  exact hchoices.bind fun _ _ => filled_inContexts registry rule _

theorem filled_betweenRules (rule : ContextualRule) {first second : List Element}
    (hfirst : first ≠ []) (hsecond : second ≠ []) :
    Filled (rule.betweenRules registry first second) := by
  unfold betweenRules
  dsimp only
  split
  next hempty => exact absurd (List.isEmpty_iff.mp hempty) hfirst
  next =>
    split
    next hempty => exact absurd (List.isEmpty_iff.mp hempty) hsecond
    next =>
      refine (filled_positionsOf registry _).bind fun _ _ => ?_
      refine (filled_positionsOf registry _).bind fun _ _ => ?_
      exact filled_inContexts registry rule _

theorem filled_whenPositions (pattern : List Element) :
    Filled (whenPositions registry pattern) := by
  unfold whenPositions
  dsimp only
  split
  next => exact filled_error rfl
  next =>
    refine (filled_positionsOf registry _).bind fun positions _ => ?_
    split
    next => exact filled_ok _
    next => exact filled_error rfl

theorem filled_whenPairs (pairs : List Pair) (size : Nat) :
    Filled (whenPairs registry pairs size) := by
  refine filled_mapM fun pair _ => ?_
  refine (pair.filled_glyphs registry).bind fun sides _ => ?_
  dsimp only
  split
  next => exact filled_ok _
  next => exact filled_error rfl

end ContextualRule

namespace ReorderRule

theorem saysEmpty_unevenPosition? {before after : List (Element × List Glyph)} {fault : RuleFault}
    (h : unevenPosition? before after = some fault) : fault.saysEmpty = false := by
  obtain ⟨x, _, hx⟩ := List.exists_of_findSome?_eq_some h
  dsimp only at hx
  split at hx
  next => cases hx
  next =>
    cases hx
    rfl

theorem filled_positions {rule : ReorderRule} (hbefore : rule.before ≠ [])
    (hafter : rule.after ≠ []) : Filled (rule.positions registry) := by
  have hb := List.length_pos_iff.mpr hbefore
  have ha := List.length_pos_iff.mpr hafter
  unfold positions
  dsimp only
  split
  next =>
    apply filled_error
    simp only [RuleFault.saysEmpty, Bool.or_eq_false_iff, beq_eq_false_iff_ne]
    omega
  next =>
    split
    next =>
      apply filled_error
      simp only [RuleFault.saysEmpty, beq_eq_false_iff_ne]
      omega
    next =>
      refine (filled_positionsOf registry _).bind fun before _ => ?_
      refine (filled_positionsOf registry _).bind fun after _ => ?_
      split
      next fault hfault => exact filled_error (saysEmpty_unevenPosition? hfault)
      next =>
        split
        next => exact filled_error rfl
        next =>
          split
          next => exact filled_error rfl
          next => exact filled_ok _

end ReorderRule

theorem Verb.filled_detect (before after : List Glyph) : Filled (Verb.detect before after) := by
  have hplaces : Filled (Verb.places before after) := by
    refine filled_mapM fun g _ => ?_
    split
    next => exact filled_ok _
    next => exact filled_error rfl
  unfold Verb.detect
  split
  next => exact filled_error rfl
  next =>
    split
    next => exact filled_error rfl
    next =>
      split
      next fault hfault => exact filled_error (hplaces fault hfault)
      next =>
        split
        next => exact filled_ok _
        next =>
          split
          next => exact filled_error rfl
          next => exact filled_error rfl

end Expansion

section Actions

namespace CompileM

variable {α β : Type}

/-- No rule is at fault for something empty when the action fails. -/
def Fills (x : CompileM α) : Prop :=
  ∀ s s' line fault, exec x s = (.error (.invalidRule line fault), s') → fault.saysEmpty = false

namespace Fills

theorem of_returns {x : CompileM α} {a : α} (h : Returns x a) : Fills x := by
  intro s s' line fault he
  obtain ⟨s'', hs⟩ := h s
  rw [hs] at he
  cases he

theorem pure (a : α) : Fills (Pure.pure a : CompileM α) :=
  of_returns (.pure a)

/-- A group of glyph rules without a subtable is the fault of no rule. -/
theorem failed (fault : TableFault) : Fills (throw (.failed fault) : CompileM α) := by
  intro s s' line fault' he
  cases he

theorem bind {x : CompileM α} {f : α → CompileM β} (hx : Fills x) (hf : ∀ a, Fills (f a)) :
    Fills (x >>= f) := by
  intro s s' line fault he
  rcases exec_bind_error he with he | ⟨a, m, _, he⟩
  · exact hx s s' line fault he
  · exact hf a m s' line fault he

theorem mapM {f : α → CompileM β} {xs : List α} (hf : ∀ x ∈ xs, Fills (f x)) :
    Fills (xs.mapM f) := by
  induction xs with
  | nil => exact pure []
  | cons x xs ih =>
    rw [List.mapM_cons]
    refine bind (hf x List.mem_cons_self) fun _ => bind (ih ?_) fun _ => pure _
    exact fun y hy => hf y (List.mem_cons_of_mem x hy)

theorem atLine (line : Nat) {result : Except RuleFault α} (h : Filled result) :
    Fills (CompileM.atLine line result) := by
  intro s s' line' fault he
  cases result with
  | ok a => cases he
  | error fault' =>
    cases he
    exact h fault rfl

theorem inTable (result : Except TableFault α) : Fills (CompileM.inTable result) := by
  cases result with
  | ok a => exact pure a
  | error fault => exact failed fault

theorem temporary (key : TempKey) : Fills (CompileM.temporary key) := by
  intro s s' line fault he
  cases (exec_temporary_error he).1

theorem merge (description : String) (pairs : List (Glyph × Glyph)) :
    Fills (CompileM.merge description pairs) :=
  of_returns (.merge description pairs)

theorem announce (subtable : Subtable) : Fills (CompileM.announce subtable) :=
  of_returns (.announce subtable)

theorem reportAll (events : List Event) : Fills (CompileM.reportAll events) :=
  of_returns (.reportAll events)

theorem record (event : Session → Event) : Fills (do CompileM.report (event (← get))) :=
  of_returns (.get_bind fun _ => .report _)

theorem collect {ρ κ : Type} [BEq κ] {entriesOf : ρ → CompileM (List α)} {rules : List ρ}
    (hf : ∀ r ∈ rules, Fills (entriesOf r)) (key : α → κ) (event : α → Event) (kept : List α) :
    Fills (CompileM.collect entriesOf key event kept rules) := by
  induction rules generalizing kept with
  | nil => exact pure kept
  | cons r rest ih =>
    obtain ⟨hr, hrest⟩ := List.forall_mem_cons.mp hf
    exact bind hr fun _ => bind (reportAll _) fun _ => ih hrest _

theorem ifAny {ρ : Type} {subtables : List ρ → CompileM (List Subtable)} {rules : List ρ}
    (h : Fills (subtables rules)) : Fills (Metamorphosis.ifAny subtables rules) := by
  unfold Metamorphosis.ifAny
  split
  next => exact pure []
  next => exact h

end Fills

end CompileM

open CompileM

theorem fills_markTargets (line ordinal : Nat) (pattern : List Glyph)
    (pairs : List (Glyph × Glyph)) (marked : List MarkedTarget) :
    Fills (markTargets line ordinal pattern marked pairs) := by
  induction pairs generalizing marked with
  | nil => exact .pure _
  | cons p rest ih =>
    unfold markTargets
    split
    next => exact .failed _
    next => exact .bind (.temporary _) fun _ => ih _

theorem fills_passes (ordinal : Nat) (rule : GlyphRule) : Fills (rule.passes ordinal) := by
  unfold GlyphRule.passes
  split
  next =>
    split
    next => exact .bind (fills_markTargets _ _ _ _ _) fun _ => .bind (.merge _ _) fun _ => .pure _
    next => exact .failed _
  next => exact .failed _

theorem RuleGroup.fills_subtables (group : RuleGroup) : Fills group.subtables := by
  cases group with
  | adjacent side glyph rules => exact .bind (.merge _ _) fun _ => .pure _
  | chain side rules => exact .bind (.inTable _) fun _ => .bind (.merge _ _) fun _ => .pure _
  | between rules => exact .bind (.merge _ _) fun _ => .pure _
  | betweenChain first second rules =>
    unfold RuleGroup.subtables
    dsimp only
    split
    next => exact .failed _
    next =>
      refine .bind (.merge _ _) fun entries => ?_
      split
      next => exact .failed _
      next => exact .pure _
  | whole rules => exact .bind (.inTable _) fun _ => .bind (.merge _ _) fun _ => .pure _
  | cleanup description rules => exact .bind (.merge _ _) fun _ => .pure _
  | multiPass ordinal rule => exact fills_passes ordinal rule

/-- Rules are at fault only while they are expanded. -/
theorem fills_allSubtables (rules : List GlyphRule) : Fills (GlyphRule.allSubtables rules) := by
  refine .bind (.record fun _ => .synthesizing (RuleCounts.ofRules rules)) fun _ => ?_
  refine .bind (.mapM fun group _ => ?_) fun _ => .pure _
  exact .bind group.fills_subtables fun made => .mapM fun subtable _ => .announce subtable

namespace ContextualRule

variable (registry : Registry)

theorem fills_splitAtTarget (line : Nat) (positions : List (List Glyph)) (target : Element)
    (targets replacements : List Glyph) :
    Fills (splitAtTarget line positions target targets replacements) := by
  rw [splitAtTarget_eq]
  split
  next =>
    intro s s' line' fault he
    cases he
    rfl
  next index _ =>
    refine .bind (.mapM fun x _ => ?_) fun _ => .pure _
    unfold splitRules
    split
    next => exact .pure _
    next =>
      split
      next => exact .pure _
      next => exact .bind (.temporary _) fun _ => .pure _

theorem fills_whenRules (rule : ContextualRule) (pattern : List Element) :
    Fills (rule.whenRules registry pattern) := by
  unfold whenRules
  refine .bind (.atLine _ (filled_whenPositions registry pattern)) fun _ => ?_
  refine .bind (.atLine _ (filled_whenPairs registry _ _)) fun _ => ?_
  split
  next => exact fills_splitAtTarget _ _ _ _ _
  next => exact .pure _

theorem fills_glyphRules {rule : ContextualRule} (h : rule.Printable) :
    Fills (rule.glyphRules registry) := by
  obtain ⟨hcontext, hpairs, _⟩ := h
  have hreport : ∀ made : List GlyphRule,
      Fills (do CompileM.reportAll (made.map .glyphRule); return made) :=
    fun made => .bind (.reportAll _) fun _ => .pure made
  unfold glyphRules
  dsimp only
  split
  next hempty => exact absurd (List.isEmpty_iff.mp hempty) hpairs
  next =>
    cases hc : rule.context with
    | after pattern =>
      rw [hc] at hcontext
      exact .bind (.atLine _ (filled_adjacentRules registry rule .after hcontext.1)) hreport
    | before pattern =>
      rw [hc] at hcontext
      exact .bind (.atLine _ (filled_adjacentRules registry rule .before hcontext.1)) hreport
    | between first second =>
      rw [hc] at hcontext
      exact .bind (.atLine _ (filled_betweenRules registry rule hcontext.1.1 hcontext.2.1.1)) hreport
    | when pattern => exact .bind (fills_whenRules registry rule pattern) hreport

end ContextualRule

theorem ReorderRule.fills_windows (registry : Registry) {rule : ReorderRule} (h : rule.Printable) :
    Fills (rule.windows registry) := by
  refine .bind (.atLine _ (rule.filled_positions registry h.1.1 h.2.1)) fun _ => ?_
  refine .mapM fun k _ => .bind (.atLine _ (Verb.filled_detect _ _)) fun _ => ?_
  exact .bind (.record fun _ => .window _) fun _ => .pure _

end Actions

section Files

open CompileM

/-- Nothing is found empty when the classes of the file are registered and its rules are expanded,
rule by rule or all of them. -/
structure RuleFile.NothingEmpty (file : RuleFile) : Prop where
  classes : Filled (Registry.ofClasses file.classes)
  contextual : ∀ registry, ∀ r ∈ file.contextual, Fills (r.glyphRules registry)
  reorder : ∀ registry, ∀ r ∈ file.reorder, Fills (r.windows registry)
  simple : ∀ registry, ∀ r ∈ file.simple, Filled (r.entries registry)
  ligature : ∀ registry, ∀ r ∈ file.ligature, Filled (r.entries registry)
  oneToMany : ∀ registry, ∀ r ∈ file.oneToMany, Filled (r.entries registry)

theorem RuleFile.Printable.nothingEmpty {file : RuleFile} (h : file.Printable) :
    file.NothingEmpty := by
  obtain ⟨hclasses, hcontextual, hreorder, _, _, honeToMany⟩ := h
  exact {
    classes := filled_ofClasses fun c hc => (hclasses c hc).2
    contextual := fun registry r hr => ContextualRule.fills_glyphRules registry (hcontextual r hr)
    reorder := fun registry r hr => ReorderRule.fills_windows registry (hreorder r hr)
    simple := fun registry r _ => r.filled_entries registry
    ligature := fun registry r _ => r.filled_entries registry
    oneToMany := fun registry r hr => r.filled_entries registry (honeToMany r hr).2.1 }

theorem RuleFile.NothingEmpty.fills_compile {file : RuleFile} (h : file.NothingEmpty)
    (config : Config) : Fills (file.compile config) := by
  unfold RuleFile.compile
  split
  next fault hfault =>
    intro s s' line fault' he
    cases he
    exact h.classes fault hfault
  next registry _ =>
    refine .bind (.ifAny ?_) fun simple => .bind (.ifAny ?_) fun ligatures =>
      .bind (.ifAny ?_) fun oneToMany => .bind (.ifAny ?_) fun contextual =>
      .bind (.ifAny ?_) fun reorder => ?_
    · refine .bind (.mapM fun r hr => .atLine _ (h.simple registry r hr)) fun _ => ?_
      exact .bind (.merge _ _) fun _ => .bind (.announce _) fun _ => .pure _
    · refine .bind (.collect (fun r hr => .atLine _ (h.ligature registry r hr)) _ _ _) fun _ => ?_
      exact .bind (.announce _) fun _ => .pure _
    · refine .bind (.collect (fun r hr => .atLine _ (h.oneToMany registry r hr)) _ _ _) fun _ => ?_
      exact .bind (.announce _) fun _ => .pure _
    · refine .bind (.bind (.mapM fun r hr => h.contextual registry r hr) fun _ => ?_)
        fun _ => fills_allSubtables _
      rw [← bind_assoc]
      exact .bind (.record _) fun _ => .pure _
    · refine .bind (.bind (.mapM fun r hr => h.reorder registry r hr) fun _ => ?_)
        fun _ => .mapM fun _ _ => .announce _
      exact .bind (.record fun _ => .reorderExpanded _ _) fun _ => .pure _
    · rw [← bind_assoc]
      exact .bind (.record _) fun _ => .pure _

/-- Whatever is read is well formed: names are names, and there is something wherever the rule
language asks for a list. So no rule of the file is ever at fault for something empty. -/
theorem parse_wellFormed {source : String} {file : RuleFile}
    (h : RuleFile.parse source = .ok file) :
    file.Printable ∧ file.NothingEmpty ∧ ∀ config, Fills (file.compile config) :=
  have hprintable := RuleFile.printable_of_parse h
  ⟨hprintable, hprintable.nothingEmpty, hprintable.nothingEmpty.fills_compile⟩

/-- A block on one line, a keyword and a name run together, and a class in brackets. -/
def tightRules : String :=
  "@class v=[a e.1]\n@contextual\x7bbetween @v x and and:t=>u,@v=>@v\x7d@ligature \x7b f_i:=f+i\x7d\n" ++
  "@one2many \x7bw>v v\n\x7d @reorder \x7b\n afterx b => b afterx\n\x7d"

def tightRulesFile : RuleFile where
  classes := [⟨"v", ["a", "e.1"]⟩]
  contextual := [⟨.between [.classRef "v", .glyph "x"] [.glyph "and"],
    [⟨.glyph "t", .glyph "u", none⟩, ⟨.classRef "v", .classRef "v", none⟩], 2⟩]
  reorder := [⟨[.glyph "afterx", .glyph "b"], [.glyph "b", .glyph "afterx"], 5⟩]
  ligature := [⟨.glyph "f_i", [.glyph "f", .glyph "i"], 2⟩]
  oneToMany := [⟨.glyph "w", [.glyph "v", .glyph "v"], 3⟩]

theorem parse_wellFormed_tight :
    RuleFile.parse tightRules = .ok tightRulesFile ∧ tightRulesFile.Printable ∧
      tightRulesFile.NothingEmpty ∧ ∀ config, Fills (tightRulesFile.compile config) := by
  have hparse : RuleFile.parse tightRules = .ok tightRulesFile :=
    except_ok_of_toOption (by decide +kernel)
  exact ⟨hparse, parse_wellFormed hparse⟩

end Files

end Metamorphosis
