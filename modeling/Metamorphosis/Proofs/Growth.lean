import Mathlib.Order.Defs.Unbundled
import Metamorphosis.Compile
import Metamorphosis.Proofs.Arena
import Metamorphosis.Proofs.Outcome

namespace Metamorphosis

instance : IsPreorder Arena Arena.Extends where
  refl := Arena.Extends.refl
  trans _ _ _ := Arena.Extends.trans

namespace CompileM

/-- An action composed of the steps of a session. Temporary glyphs are asked for only if it `draws`
on the arena; apart from them, what the session holds shows up in events only. -/
inductive Composed (draws : Prop) : {α : Type} → CompileM α → Prop
  | pure {α : Type} (a : α) : Composed draws (Pure.pure a : CompileM α)
  | throw {α : Type} (e : CompileError) : Composed draws (MonadExcept.throw e : CompileM α)
  | bind {α β : Type} {x : CompileM α} {f : α → CompileM β} (hx : Composed draws x)
      (hf : ∀ a, Composed draws (f a)) : Composed draws (x >>= f)
  | record (event : Session → Event) : Composed draws (do CompileM.report (event (← get)))
  | reportAll (events : List Event) : Composed draws (CompileM.reportAll events)
  | announce (subtable : Subtable) : Composed draws (CompileM.announce subtable)
  | temporary (hd : draws) (key : TempKey) : Composed draws (CompileM.temporary key)

variable {α β : Type} {draws : Prop}

namespace Composed

theorem report (event : Event) : Composed draws (CompileM.report event) :=
  record fun _ => event

theorem atLine (line : Nat) (result : Except RuleFault α) :
    Composed draws (CompileM.atLine line result) := by
  cases result with
  | ok a => exact pure a
  | error fault => exact throw _

theorem inTable (result : Except TableFault α) : Composed draws (CompileM.inTable result) := by
  cases result with
  | ok a => exact pure a
  | error fault => exact throw _

theorem merge (description : String) (pairs : List (Glyph × Glyph)) :
    Composed draws (CompileM.merge description pairs) :=
  bind (reportAll _) fun _ => pure _

theorem mapM {f : α → CompileM β} {xs : List α} (hf : ∀ x ∈ xs, Composed draws (f x)) :
    Composed draws (xs.mapM f) := by
  induction xs with
  | nil => exact pure []
  | cons x xs ih =>
    rw [List.mapM_cons]
    refine bind (hf x List.mem_cons_self) fun _ => bind (ih ?_) fun _ => pure _
    exact fun y hy => hf y (List.mem_cons_of_mem x hy)

theorem collect {ρ κ : Type} [BEq κ] {entriesOf : ρ → CompileM (List α)}
    (hf : ∀ r, Composed draws (entriesOf r)) (key : α → κ) (event : α → Event) (kept : List α)
    (rules : List ρ) : Composed draws (CompileM.collect entriesOf key event kept rules) := by
  induction rules generalizing kept with
  | nil => exact pure kept
  | cons r rest ih => exact bind (hf r) fun _ => bind (reportAll _) fun _ => ih _

theorem ifAny {ρ : Type} {subtables : List ρ → CompileM (List Subtable)} {rules : List ρ}
    (h : Composed draws (subtables rules)) :
    Composed draws (Metamorphosis.ifAny subtables rules) := by
  unfold Metamorphosis.ifAny
  split
  next => exact pure []
  next => exact h

end Composed

/-- The arena after the action has this relation to the one before it. -/
def Carries (R : Arena → Arena → Prop) (x : CompileM α) : Prop :=
  ∀ s : Session, R s.arena (exec x s).2.arena

theorem Carries.of_exec {R : Arena → Arena → Prop} {x : CompileM α} (hx : Carries R x)
    {s s' : Session} {result : Except CompileError α} (h : exec x s = (result, s')) :
    R s.arena s'.arena := by
  have hs := hx s
  rwa [h] at hs

/-- What requests for temporary glyphs do to the arena, an action that makes them does as well. -/
theorem Composed.carries {R : Arena → Arena → Prop} [IsPreorder Arena R]
    (hrequest : draws → ∀ key, Carries R (CompileM.temporary key)) {x : CompileM α}
    (hx : Composed draws x) : Carries R x := by
  induction hx with
  | pure | throw | record | reportAll | announce => exact fun s => Std.Refl.refl s.arena
  | temporary hd key => exact hrequest hd key
  | @bind _ _ x f _ _ ihx ihf =>
    intro s
    rw [exec_bind]
    cases he : exec x s with
    | mk result m =>
      have hm := ihx.of_exec he
      cases result with
      | ok a => exact IsTrans.trans _ _ _ hm (ihf a m)
      | error e => exact hm

/-- An action that asks for no temporary glyph leaves the arena as it is. -/
theorem Composed.keeps {x : CompileM α} (hx : Composed False x) : Carries Eq x :=
  hx.carries False.elim

/-- The action gives up no code. -/
def Grows (x : CompileM α) : Prop :=
  Carries Arena.Extends x

theorem Grows.temporary (key : TempKey) : Grows (temporary key) := by
  intro s
  cases he : exec (CompileM.temporary key) s with
  | mk result s' =>
    cases result with
    | ok temp =>
      obtain ⟨code, _, _, hext⟩ := exec_temporary_ok he
      exact hext
    | error e =>
      rw [(exec_temporary_error he).2.2]
      exact .refl s.arena

theorem Composed.grows {x : CompileM α} (hx : Composed draws x) : Grows x :=
  hx.carries fun _ => Grows.temporary

/-- The results of actions one after another, each with sessions in between. -/
theorem exec_mapM_grows {f : α → CompileM β} (hf : ∀ x, Composed draws (f x)) {xs : List α}
    {ys : List β} {s s' : Session} (h : exec (xs.mapM f) s = (.ok ys, s')) :
    List.Forall₂ (fun x y => ∃ before after, exec (f x) before = (.ok y, after) ∧
      after.arena.Extends s'.arena) xs ys := by
  induction xs generalizing ys s with
  | nil =>
    rw [← exec_pure_ok h]
    exact .nil
  | cons x xs ih =>
    rw [List.mapM_cons] at h
    obtain ⟨y, m, hy, h⟩ := exec_bind_ok h
    obtain ⟨rest, m', hrest, h⟩ := exec_bind_ok h
    have hs : m' = s' := (Prod.mk.inj h).2
    rw [← exec_pure_ok h]
    rw [hs] at hrest
    exact .cons ⟨s, m, hy, (Composed.mapM fun y _ => hf y).grows.of_exec hrest⟩ (ih hrest)

end CompileM

open CompileM

namespace ContextualRule

theorem composed_takeApart (line k index : Nat) (pattern : List Glyph)
    (target replacement : Glyph) :
    Composed True (takeApart line k index pattern target replacement) :=
  .bind (.temporary trivial _) fun _ => .pure _

/-- The rules of the `k`-th target of a pattern that is split at an index. -/
def splitRules (line index : Nat) (positions : List (List Glyph)) (t r : Glyph) (k : Nat) :
    CompileM (List GlyphRule) :=
  if index = 0 then
    return [GlyphRule.single (.before ((column positions k).drop 1)) t r line]
  else if index + 1 = positions.length then
    return [GlyphRule.single (.after ((column positions k).take index)) t r line]
  else takeApart line k index (column positions k) t r

theorem splitAtTarget_eq (line : Nat) (positions : List (List Glyph)) (target : Element)
    (targets replacements : List Glyph) :
    splitAtTarget line positions target targets replacements =
      match positions.findIdx? fun position => position.any targets.contains with
      | none => throw (.invalidRule (some line) (.targetOutsidePattern target))
      | some index => do
        let perTarget ← (targets.zip replacements).zipIdx.mapM fun x =>
          splitRules line index positions x.1.1 x.1.2 x.2
        return perTarget.flatten := by
  unfold splitAtTarget
  rfl

theorem composed_splitRules (line index : Nat) (positions : List (List Glyph)) (t r : Glyph)
    (k : Nat) : Composed True (splitRules line index positions t r k) := by
  unfold splitRules
  split
  next => exact .pure _
  next =>
    split
    next => exact .pure _
    next => exact composed_takeApart line k index (column positions k) t r

theorem composed_splitAtTarget (line : Nat) (positions : List (List Glyph)) (target : Element)
    (targets replacements : List Glyph) :
    Composed True (splitAtTarget line positions target targets replacements) := by
  rw [splitAtTarget_eq]
  split
  next => exact .throw _
  next index _ =>
    refine .bind (.mapM ?_) fun _ => .pure _
    exact fun x _ => composed_splitRules line index positions x.1.1 x.1.2 x.2

theorem composed_whenRules (registry : Registry) (rule : ContextualRule) (pattern : List Element) :
    Composed True (rule.whenRules registry pattern) := by
  unfold whenRules
  refine .bind (.atLine _ _) fun _ => .bind (.atLine _ _) fun _ => ?_
  split
  next => exact composed_splitAtTarget _ _ _ _ _
  next => exact .pure _

theorem composed_glyphRules (registry : Registry) (rule : ContextualRule) :
    Composed True (rule.glyphRules registry) := by
  have hreport : ∀ made : List GlyphRule,
      Composed True (do reportAll (made.map .glyphRule); return made) :=
    fun made => .bind (.reportAll _) fun _ => .pure made
  unfold glyphRules
  dsimp only
  split
  next => exact .throw _
  next =>
    cases rule.context with
    | after pattern => exact .bind (.atLine _ _) hreport
    | before pattern => exact .bind (.atLine _ _) hreport
    | between first second => exact .bind (.atLine _ _) hreport
    | when pattern => exact .bind (composed_whenRules registry rule pattern) hreport

end ContextualRule

namespace RuleGroup

theorem composed_markTargets (line ordinal : Nat) (pattern : List Glyph)
    (pairs : List (Glyph × Glyph)) (marked : List MarkedTarget) :
    Composed True (markTargets line ordinal pattern marked pairs) := by
  induction pairs generalizing marked with
  | nil => exact .pure _
  | cons p rest ih =>
    unfold markTargets
    split
    next => exact .throw _
    next => exact .bind (.temporary trivial _) fun _ => ih _

theorem composed_passes (ordinal : Nat) (rule : GlyphRule) :
    Composed True (rule.passes ordinal) := by
  unfold GlyphRule.passes
  split
  next =>
    split
    next => exact .bind (composed_markTargets _ _ _ _ _) fun _ => .bind (.merge _ _) fun _ => .pure _
    next => exact .throw _
  next => exact .throw _

/-- Only rules that take several passes ask for temporary glyphs. -/
theorem composed_subtables {draws : Prop} {group : RuleGroup}
    (hpasses : ∀ ordinal rule, group = .multiPass ordinal rule →
      Composed draws (rule.passes ordinal)) : Composed draws group.subtables := by
  cases group with
  | adjacent side glyph rules => exact .bind (.merge _ _) fun _ => .pure _
  | chain side rules => exact .bind (.inTable _) fun _ => .bind (.merge _ _) fun _ => .pure _
  | between rules => exact .bind (.merge _ _) fun _ => .pure _
  | betweenChain first second rules =>
    unfold subtables
    dsimp only
    split
    next => exact .throw _
    next =>
      refine .bind (.merge _ _) fun entries => ?_
      split
      next => exact .throw _
      next => exact .pure _
  | whole rules => exact .bind (.inTable _) fun _ => .bind (.merge _ _) fun _ => .pure _
  | cleanup description rules => exact .bind (.merge _ _) fun _ => .pure _
  | multiPass ordinal rule => exact hpasses ordinal rule rfl

theorem composed_announced_of {draws : Prop} {group : RuleGroup}
    (h : Composed draws group.subtables) : Composed draws group.announced :=
  .bind h fun _ => .mapM fun subtable _ => .announce subtable

theorem composed_announced (group : RuleGroup) : Composed True group.announced :=
  composed_announced_of (composed_subtables fun ordinal rule _ => composed_passes ordinal rule)

/-- Announcing subtables leaves the arena as it is. -/
theorem exec_announced_arena {group : RuleGroup} {made : List Subtable} {s s' : Session}
    (h : exec group.announced s = (.ok made, s')) :
    ∃ m, exec group.subtables s = (.ok made, m) ∧ m.arena = s'.arena := by
  obtain ⟨made', m, hm, h⟩ := exec_bind_ok h
  have harena : m.arena = s'.arena :=
    (Composed.mapM fun subtable _ => .announce subtable).keeps.of_exec h
  obtain ⟨m', hm'⟩ := Returns.announceAll made' m
  rw [hm'] at h
  obtain ⟨he, _⟩ := Prod.mk.inj h
  exact ⟨m, by rw [hm, Except.ok.inj he], harena⟩

end RuleGroup

theorem composed_allSubtables (rules : List GlyphRule) :
    Composed True (GlyphRule.allSubtables rules) :=
  .bind (.report _) fun _ => .bind (.mapM fun group _ => RuleGroup.composed_announced group)
    fun _ => .pure _

/-- Every subtable of glyph rules is one of a group of them, and the arena keeps the codes that the
group has then. -/
theorem exec_allSubtables_grows {rules : List GlyphRule} {made : List Subtable} {s s' : Session}
    (h : exec (GlyphRule.allSubtables rules) s = (.ok made, s')) :
    ∀ sub ∈ made, ∃ group ∈ RuleGroup.ofRules rules, ∃ ofGroup before after, sub ∈ ofGroup ∧
      exec group.subtables before = (.ok ofGroup, after) ∧ after.arena.Extends s'.arena := by
  obtain ⟨_, m, _, h⟩ := exec_bind_ok h
  obtain ⟨perGroup, m', hgroups, h⟩ := exec_bind_ok h
  obtain ⟨hmade, rfl⟩ := Prod.mk.inj h
  rw [← Except.ok.inj hmade]
  intro sub hsub
  obtain ⟨ofGroup, hmem, hsub⟩ := List.mem_flatten.mp hsub
  obtain ⟨group, hgroup, before, after, hannounced, hext⟩ :=
    forall₂_of_mem_right (exec_mapM_grows RuleGroup.composed_announced hgroups) ofGroup hmem
  obtain ⟨last, hmade, harena⟩ := RuleGroup.exec_announced_arena hannounced
  exact ⟨group, hgroup, ofGroup, before, last, hsub, hmade, by rwa [harena]⟩

section Kinds

variable (registry : Registry)

theorem composed_simple (rules : List SimpleRule) :
    Composed False (SimpleRule.subtables registry rules) :=
  .bind (.mapM fun _ _ => .atLine _ _) fun _ => .bind (.merge _ _) fun _ =>
    .bind (.announce _) fun _ => .pure _

theorem composed_ligature (rules : List LigatureRule) :
    Composed False (LigatureRule.subtables registry rules) :=
  .bind (.collect (fun _ => .atLine _ _) _ _ _ _) fun _ => .bind (.announce _) fun _ => .pure _

theorem composed_oneToMany (rules : List OneToManyRule) :
    Composed False (OneToManyRule.subtables registry rules) :=
  .bind (.collect (fun _ => .atLine _ _) _ _ _ _) fun _ => .bind (.announce _) fun _ => .pure _

theorem composed_windows (rule : ReorderRule) : Composed False (rule.windows registry) :=
  .bind (.atLine _ _) fun _ => .mapM fun _ _ => .bind (.atLine _ _) fun _ =>
    .bind (.report _) fun _ => .pure _

theorem composed_reorder (rules : List ReorderRule) :
    Composed False (ReorderRule.subtables registry rules) :=
  .bind (.bind (.mapM fun rule _ => composed_windows registry rule) fun _ =>
    .bind (.report _) fun _ => .pure _) fun _ => .mapM fun _ _ => .announce _

end Kinds

end Metamorphosis
