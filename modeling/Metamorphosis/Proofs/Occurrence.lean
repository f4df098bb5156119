import Mathlib.Data.List.Nodup
import Metamorphosis.Proofs.Decomposition
import Metamorphosis.Proofs.GlyphRule.Ownership
import Metamorphosis.Proofs.StateTable.ChainAfter
import Metamorphosis.Proofs.StateTable.ChainBefore

namespace Metamorphosis

open CompileM

open ContextualRule (singletons literal)

section Sides

variable {side : Side} {context : List Glyph} {rule : GlyphRule} {t x : Glyph}

/-- The table of one rule with its context on a side. -/
def StateTable.beside (side : Side) (context : List Glyph) (entries : List (Glyph × Glyph)) :
    StateTable :=
  match context with
  | [glyph] => StateTable.adjacent side glyph entries
  | _ => StateTable.chain side context.length [context] entries

theorem StateTable.beside_long {a b : Glyph} {rest : List Glyph} {entries : List (Glyph × Glyph)} :
    StateTable.beside side (a :: b :: rest) entries =
      StateTable.chain side (a :: b :: rest).length [a :: b :: rest] entries := rfl

theorem returns_beside (side : Side) (rule : GlyphRule) (hne : context ≠ [])
    (hp : rule.pattern? = some context) :
    ∃ sub, Returns (RuleGroup.beside side context rule).subtables [sub] ∧ ∀ run,
      sub.apply run =
        (StateTable.beside side context (firstReplacements rule.pairs)).run run := by
  have hs : substitutions [rule] = rule.pairs := by simp [substitutions]
  rw [← hs]
  obtain ⟨g, rest, rfl⟩ := List.exists_cons_of_ne_nil hne
  cases rest with
  | nil => exact ⟨_, .bind (.merge _ _) (.pure _), fun run => rfl⟩
  | cons h rest =>
    have hlength : chainLength side [rule] = .ok (g :: h :: rest).length := by
      simp [chainLength, hp]
    have hpatterns : [rule].filterMap GlyphRule.pattern? = [g :: h :: rest] := by simp [hp]
    unfold RuleGroup.beside RuleGroup.subtables StateTable.beside
    dsimp only
    rw [hlength, hpatterns]
    exact ⟨_, .bind (.pure _) (.bind (.merge _ _) (.pure _)), fun run => rfl⟩

theorem positionGlyphs_single :
    StateTable.positionGlyphs [context] context.length = singletons context := by
  apply List.ext_getElem?
  intro i
  unfold StateTable.positionGlyphs singletons
  rw [List.getElem?_map, List.getElem?_map]
  by_cases hi : i < context.length
  · rw [List.getElem?_range hi]
    simp [hi]
  · rw [List.getElem?_eq_none (by simpa using hi), List.getElem?_eq_none (by simpa using hi)]
    rfl

theorem endsIn_take_single {glyph : Glyph} {run : List Glyph} {i : Nat} (hi : i < run.length) :
    endsIn [[glyph]] (run.take i) = true ↔ 0 < i ∧ run[i - 1]? = some glyph := by
  cases i with
  | zero => simp
  | succ i =>
    have hg : run[i]? = some run[i] := List.getElem?_eq_getElem (by omega)
    rw [StateTable.take_succ_of_getElem? hg, endsIn_single, Nat.add_sub_cancel, hg]
    simp

theorem beginsWith_drop_single {glyph : Glyph} {run : List Glyph} {i : Nat} :
    beginsWith [[glyph]] (run.drop i) = true ↔ run[i]? = some glyph := by
  have hhead : run[i]? = (run.drop i).head? := by
    rw [List.head?_drop]
  rw [beginsWith_single, hhead]
  constructor
  · rintro ⟨y, rest, hd, hy⟩
    rw [hd, List.mem_singleton.mp hy]
    rfl
  · intro hh
    obtain ⟨rest, hd⟩ := List.head?_eq_some_iff.mp hh
    exact ⟨glyph, rest, hd, List.mem_singleton.mpr rfl⟩

theorem keys_single : ∀ g ∈ (firstReplacements [(t, x)]).map Prod.fst, g = t := by
  intro g hg
  simpa using mem_keys_firstReplacements.mp hg

/-- The target becomes its replacement after a word over the context. -/
theorem run_beside_after (hne : context ≠ []) (hn : context.Nodup) (ht : t ∉ context)
    (run : List Glyph) :
    (StateTable.beside .after context (firstReplacements [(t, x)])).run run =
      run.mapIdx fun i g =>
        if endsIn (singletons context) (run.take i) = true ∧ g = t then x else g := by
  have happart : StateTable.Apart (singletons context)
      ((firstReplacements [(t, x)]).map Prod.fst) :=
    StateTable.apart_singletons hn fun g hg hk => ht (keys_single g hk ▸ hg)
  match context, hne with
  | [glyph], _ =>
    rw [StateTable.beside, StateTable.run_after]
    apply StateTable.mapIdx_congr
    intro i g hg
    have hi := (List.getElem?_eq_some_iff.mp hg).1
    rw [lookup_firstReplacements, getD_lookup_single]
    simp only [singletons, List.map_cons, List.map_nil, endsIn_take_single hi, ite_and]
  | a :: b :: rest, _ =>
    rw [StateTable.beside_long, StateTable.run_chainAfter (by simp)
      (by rw [positionGlyphs_single]; exact happart), positionGlyphs_single]
    simp only [lookup_firstReplacements, getD_lookup_single, ite_and]

/-- The target becomes its replacement before a word over the context. -/
theorem run_beside_before (hne : context ≠ []) (hn : context.Nodup) (ht : t ∉ context)
    (run : List Glyph) :
    (StateTable.beside .before context (firstReplacements [(t, x)])).run run =
      run.mapIdx fun i g =>
        if beginsWith (singletons context) (run.drop (i + 1)) = true ∧ g = t then x else g := by
  have happart : StateTable.Apart (singletons context)
      ((firstReplacements [(t, x)]).map Prod.fst) :=
    StateTable.apart_singletons hn fun g hg hk => ht (keys_single g hk ▸ hg)
  match context, hne with
  | [glyph], _ =>
    rw [StateTable.beside, StateTable.run_before]
    simp only [lookup_firstReplacements, getD_lookup_single, singletons, List.map_cons,
      List.map_nil, beginsWith_drop_single, ite_and]
  | a :: b :: rest, _ =>
    rw [StateTable.beside_long, StateTable.run_chainBefore (by simp)
      (by rw [positionGlyphs_single]; exact happart), positionGlyphs_single]
    simp only [lookup_firstReplacements, getD_lookup_single, ite_and]

end Sides

section Passes

variable {before after : List Glyph} {t r temp : Glyph}

theorem forall₂_mapIdx {R : Glyph → Glyph → Prop} {f : Nat → Glyph → Glyph} {run : List Glyph}
    (h : ∀ i g, R (f i g) g) : List.Forall₂ R (run.mapIdx f) run := by
  rw [List.forall₂_iff_get]
  refine ⟨by simp, ?_⟩
  intro i hi hi'
  simpa using h i run[i]

/-- The first pass makes the target a temporary glyph after its first context, which the second
context does not see, the second pass makes that the replacement before the second context, and the
cleanup takes back what is left. -/
theorem run_apart (hb : before ≠ []) (ha : after ≠ []) (hbn : before.Nodup) (han : after.Nodup)
    (htb : t ∉ before) (hta : t ∉ after) (htemp : temp ∉ after) (hr : r ≠ temp)
    {run : List Glyph} (hrun : temp ∉ run) :
    ((StateTable.beside .before after (firstReplacements [(temp, r)])).run
      ((StateTable.beside .after before (firstReplacements [(t, temp)])).run run)).map
        (fun g => if g = temp then t else g) =
      run.mapIdx fun i g =>
        if endsIn (singletons before) (run.take i) = true ∧ g = t ∧
          beginsWith (singletons after) (run.drop (i + 1)) = true then r else g := by
  rw [run_beside_after hb hbn htb, run_beside_before ha han htemp]
  have hsame : ∀ i, beginsWith (singletons after) ((run.mapIdx fun i g =>
      if endsIn (singletons before) (run.take i) = true ∧ g = t then temp else g).drop i) =
        beginsWith (singletons after) (run.drop i) := by
    intro i
    refine beginsWith_congr (List.forall₂_drop i (forall₂_mapIdx ?_)) (List.Subset.refl _)
    intro j g q hq
    obtain ⟨y, hy, rfl⟩ := List.mem_map.mp hq
    split
    next hm =>
      have hyt : y ≠ t := fun he => hta (he ▸ hy)
      have hytemp : y ≠ temp := fun he => htemp (he ▸ hy)
      simp [hm.2, hyt.symm, hytemp.symm]
    next => rfl
  simp only [hsame]
  apply List.ext_getElem?
  intro i
  simp only [List.getElem?_map, List.getElem?_mapIdx]
  cases hg : run[i]? with
  | none => rfl
  | some g =>
    have hne : g ≠ temp := by
      rintro rfl
      exact hrun (List.mem_of_getElem? hg)
    by_cases hm : endsIn (singletons before) (run.take i) = true ∧ g = t
    · obtain ⟨he, rfl⟩ := hm
      by_cases hc : beginsWith (singletons after) (run.drop (i + 1)) = true
      · simp [he, hc, hr]
      · simp [he, hc]
    · have hm' : ¬(endsIn (singletons before) (run.take i) = true ∧ g = t ∧
          beginsWith (singletons after) (run.drop (i + 1)) = true) :=
        fun h => hm ⟨h.1, h.2.1⟩
      simp only [Option.map_some, if_neg hm, if_neg hm', hne, and_false, if_false]

theorem returns_single {side : Side} {context : List Glyph} {rule : GlyphRule} (hne : context ≠ [])
    (hp : rule.pattern? = some context)
    (hgroups : RuleGroup.ofRules [rule] = [RuleGroup.beside side context rule]) :
    ∃ tables, Returns (GlyphRule.allSubtables [rule]) tables ∧ ∀ run,
      Subtable.applyAll tables run =
        (StateTable.beside side context (firstReplacements rule.pairs)).run run := by
  obtain ⟨sub, hreturns, happly⟩ := returns_beside side rule hne hp
  have hall : List.Forall₂ (fun group made => Returns (RuleGroup.subtables group) made)
      (RuleGroup.ofRules [rule]) [[sub]] := by
    rw [hgroups]
    exact .cons hreturns .nil
  exact ⟨_, Returns.allSubtables hall, happly⟩

theorem returns_cleanup {description : String} (rule : GlyphRule) (hp : rule.pairs = [(temp, t)]) :
    ∃ sub, Returns (RuleGroup.cleanup description [rule]).subtables [sub] ∧ ∀ run,
      sub.apply run = run.map fun g => if g = temp then t else g := by
  have hs : substitutions [rule] = [(temp, t)] := by simp [substitutions, hp]
  refine ⟨_, .bind (.merge _ _) (.pure _), ?_⟩
  intro run
  rw [hs]
  simp only [Subtable.apply, flatMap_replaceGlyph_glyphs, lookup_firstReplacements,
    getD_lookup_single]

theorem returns_apartRules {line index : Nat} {pattern : List Glyph}
    (hb : pattern.take index ≠ []) (ha : pattern.drop (index + 1) ≠ []) :
    ∃ tables, Returns (GlyphRule.allSubtables (apartRules line index pattern t r temp)) tables ∧
      ∀ run, Subtable.applyAll tables run =
        ((StateTable.beside .before (pattern.drop (index + 1)) (firstReplacements [(temp, r)])).run
          ((StateTable.beside .after (pattern.take index) (firstReplacements [(t, temp)])).run
            run)).map fun g => if g = temp then t else g := by
  have hgroups : RuleGroup.ofRules (apartRules line index pattern t r temp) = _ :=
    ofRules_apartRules
  obtain ⟨first, hfirst, hafter⟩ := returns_beside .after
    ⟨.context (.after (pattern.take index)), [(t, temp)], line,
      some (ContextualRule.groupName line)⟩ hb rfl
  obtain ⟨second, hsecond, hbefore⟩ := returns_beside .before
    ⟨.context (.before (pattern.drop (index + 1))), [(temp, r)], line,
      some (ContextualRule.groupName line)⟩ ha rfl
  obtain ⟨third, hthird, hcleanup⟩ := returns_cleanup
    ⟨.cleanup temp, [(temp, t)], line, some (ContextualRule.groupName line)⟩ rfl
  have hall : List.Forall₂ (fun group made => Returns (RuleGroup.subtables group) made)
      (RuleGroup.ofRules (apartRules line index pattern t r temp))
      [[first], [second], [third]] := by
    rw [hgroups]
    exact .cons hfirst (.cons hsecond (.cons hthird .nil))
  refine ⟨_, Returns.allSubtables hall, ?_⟩
  intro run
  have happly : Subtable.applyAll [[first], [second], [third]].flatten run =
      third.apply (second.apply (first.apply run)) := rfl
  rw [happly, hcleanup, hbefore, hafter]

end Passes

section Occurrences

variable {pattern run : List Glyph} {index i : Nat}

/-- The glyph at `i` is the one at `index` of the pattern, after a word over the glyphs before that
one and before a word over those after it. -/
def standsIn (pattern : List Glyph) (index : Nat) (run : List Glyph) (i : Nat) : Bool :=
  endsIn (singletons (pattern.take index)) (run.take i) && run[i]? == pattern[index]? &&
    beginsWith (singletons (pattern.drop (index + 1))) (run.drop (i + 1))

theorem standsIn_iff {target g : Glyph} (ht : pattern[index]? = some target)
    (hg : run[i]? = some g) :
    standsIn pattern index run i = true ↔
      endsIn (singletons (pattern.take index)) (run.take i) = true ∧ g = target ∧
        beginsWith (singletons (pattern.drop (index + 1))) (run.drop (i + 1)) = true := by
  simp [standsIn, ht, hg, and_assoc]

theorem standsIn_of_occurrence (hi : index < pattern.length) (before after : List Glyph) :
    standsIn pattern index (before ++ pattern ++ after) (before.length + index) = true := by
  have htake : (before ++ pattern ++ after).take (before.length + index) =
      before ++ pattern.take index := by
    rw [List.append_assoc, List.take_length_add_append, List.take_append_of_le_length (by omega)]
  have hdrop : (before ++ pattern ++ after).drop (before.length + index + 1) =
      pattern.drop (index + 1) ++ after := by
    rw [List.append_assoc, Nat.add_assoc, List.drop_length_add_append,
      List.drop_append_of_le_length (by omega)]
  have hat : (before ++ pattern ++ after)[before.length + index]? = pattern[index]? := by
    rw [List.append_assoc, List.getElem?_append_right (by omega), Nat.add_sub_cancel_left,
      List.getElem?_append_left hi]
  have hends : endsIn (singletons (pattern.take index)) (before ++ pattern.take index) = true :=
    endsIn_eq_true.mpr ⟨pattern.take index, List.suffix_append _ _, spells_singletons _⟩
  have hbegins :
      beginsWith (singletons (pattern.drop (index + 1))) (pattern.drop (index + 1) ++ after) =
        true :=
    beginsWith_eq_true.mpr ⟨pattern.drop (index + 1), List.prefix_append _ _, spells_singletons _⟩
  rw [standsIn, htake, hdrop, hat, hends, hbegins]
  simp

theorem suffix_of_endsIn {context word : List Glyph}
    (hn : ∀ g ∈ context.tail, ¬[g, g] <:+: word) (h : endsIn (singletons context) word = true) :
    context <:+ word := by
  cases context with
  | nil => exact List.nil_suffix
  | cons a rest =>
    obtain ⟨before, x, after, rfl, hx, hs⟩ := endsIn_cons.mp h
    have hafter : after <:+: before ++ x :: after :=
      ((List.suffix_cons x after).trans (List.suffix_append before (x :: after))).isInfix
    have he : after = rest := eq_of_spells_singletons hs fun g hg hw => hn g hg (hw.trans hafter)
    rw [he, List.mem_singleton.mp hx]
    exact List.suffix_append _ _

theorem prefix_of_beginsWith {context word : List Glyph}
    (hn : ∀ g ∈ context.dropLast, ¬[g, g] <:+: word)
    (h : beginsWith (singletons context) word = true) : context <+: word := by
  rcases List.eq_nil_or_concat context with rfl | ⟨first, b, rfl⟩
  · exact List.nil_prefix
  · rw [List.concat_eq_append] at *
    have hpositions : singletons (first ++ [b]) = singletons first ++ [[b]] := by
      simp [singletons]
    rw [hpositions] at h
    obtain ⟨before, x, after, rfl, hs, hx⟩ := beginsWith_concat.mp h
    have hbefore : before <:+: before ++ x :: after := (List.prefix_append _ _).isInfix
    have he : before = first := eq_of_spells_singletons hs fun g hg hw =>
      hn g (by simpa using hg) (hw.trans hbefore)
    rw [he, List.mem_singleton.mp hx]
    exact ⟨after, by simp⟩

/-- The glyphs of a pattern between one of its ends and its target. -/
def inner (pattern : List Glyph) (index : Nat) : List Glyph :=
  (pattern.take index).tail ++ (pattern.drop (index + 1)).dropLast

theorem occurrence_of_standsIn (hi : index < pattern.length)
    (hn : ∀ g ∈ inner pattern index, ¬[g, g] <:+: run) (h : standsIn pattern index run i = true) :
    ∃ before after, run = before ++ pattern ++ after ∧ i = before.length + index := by
  have ht : pattern[index]? = some pattern[index] := List.getElem?_eq_getElem hi
  have hg : run[i]? = some pattern[index] := by
    simp only [standsIn, Bool.and_eq_true, beq_iff_eq] at h
    rw [h.1.2, ht]
  obtain ⟨hends, _, hbegins⟩ := (standsIn_iff ht hg).mp h
  obtain ⟨hlt, hat⟩ := List.getElem?_eq_some_iff.mp hg
  obtain ⟨before, hbefore⟩ := suffix_of_endsIn (fun g hg hw =>
    hn g (List.mem_append_left _ hg) (hw.trans (List.take_prefix i run).isInfix)) hends
  obtain ⟨after, hafter⟩ := prefix_of_beginsWith (fun g hg hw =>
    hn g (List.mem_append_right _ hg) (hw.trans (List.drop_suffix (i + 1) run).isInfix)) hbegins
  refine ⟨before, after, ?_, ?_⟩
  · calc run = run.take i ++ run[i] :: run.drop (i + 1) := by
          rw [← List.drop_eq_getElem_cons hlt, List.take_append_drop]
      _ = before ++ (pattern.take index ++ pattern[index] :: pattern.drop (index + 1)) ++
            after := by
          rw [← hbefore, ← hafter, hat]
          simp only [List.append_assoc, List.cons_append]
      _ = before ++ pattern ++ after := by
          rw [← List.drop_eq_getElem_cons hi, List.take_append_drop]
  · have hlen := congrArg List.length hbefore
    rw [List.length_append, List.length_take, List.length_take] at hlen
    omega

end Occurrences

section Literal

variable {pattern : List Glyph} {index line : Nat} {target replacement : Glyph}

theorem findIdx?_of_nodup (hn : pattern.Nodup) (ht : pattern[index]? = some target) :
    pattern.findIdx? (fun g => g == target) = some index := by
  obtain ⟨hi, rfl⟩ := List.getElem?_eq_some_iff.mp ht
  refine List.findIdx?_eq_some_iff_getElem.mpr ⟨hi, by simp, ?_⟩
  intro j hj
  have hne : pattern[j] ≠ pattern[index] := fun he => by
    have hij := (List.Nodup.getElem_inj_iff hn).mp he
    omega
  simpa using hne

theorem exec_splitAtTarget_literal {rules : List GlyphRule} {s s' : Session}
    (hi : pattern.findIdx? (fun g => g == target) = some index)
    (h : exec (ContextualRule.splitRules line index (singletons pattern) target replacement 0) s =
      (.ok rules, s')) (element : Element) :
    exec (ContextualRule.splitAtTarget line (singletons pattern) element [target] [replacement]) s =
      (.ok rules, s') := by
  rw [ContextualRule.splitAtTarget_eq, ContextualRule.findIdx?_literal, hi]
  simp only [List.zip_cons_cons, List.zip_nil_left, List.zipIdx_cons, List.zipIdx_nil,
    List.mapM_cons, List.mapM_nil, bind_assoc, pure_bind]
  rw [exec_bind_of_ok h]
  simp

theorem nodup_around_target (hn : pattern.Nodup) (ht : pattern[index]? = some target) :
    (pattern.take index).Nodup ∧ (pattern.drop (index + 1)).Nodup ∧
      target ∉ pattern.take index ∧ target ∉ pattern.drop (index + 1) := by
  obtain ⟨hi, rfl⟩ := List.getElem?_eq_some_iff.mp ht
  have hsplit : pattern.take index ++ pattern[index] :: pattern.drop (index + 1) = pattern := by
    rw [← List.drop_eq_getElem_cons hi, List.take_append_drop]
  have hnodup := hn
  rw [← hsplit, List.nodup_append, List.nodup_cons] at hnodup
  obtain ⟨hbefore, ⟨hafter, hafterNodup⟩, hdisjoint⟩ := hnodup
  exact ⟨hbefore, hafterNodup,
    fun hmem => hdisjoint _ hmem pattern[index] List.mem_cons_self rfl, hafter⟩

theorem mapIdx_standsIn (ht : pattern[index]? = some target) (run : List Glyph) :
    (run.mapIdx fun i g =>
      if endsIn (singletons (pattern.take index)) (run.take i) = true ∧ g = target ∧
        beginsWith (singletons (pattern.drop (index + 1))) (run.drop (i + 1)) = true
      then replacement else g) =
      run.mapIdx fun i g => if standsIn pattern index run i then replacement else g := by
  apply StateTable.mapIdx_congr
  intro i g hg
  simp only [← standsIn_iff ht hg]

/-- Of some glyph rules, the tables have the meaning of the pattern for runs without the temporary
glyphs of the rules. -/
def MeansPattern (pattern : List Glyph) (index : Nat) (replacement : Glyph)
    (rules : List GlyphRule) : Prop :=
  ∃ tables, Returns (GlyphRule.allSubtables rules) tables ∧
    ∀ run, (∀ temp ∈ temporaries rules, temp ∉ replacement :: pattern ∧ temp ∉ run) →
      Subtable.applyAll tables run = run.mapIdx fun i g =>
        if standsIn pattern index run i then replacement else g

theorem meansPattern_first (hl : 2 ≤ pattern.length) (hn : pattern.Nodup)
    (ht : pattern[0]? = some target) :
    MeansPattern pattern 0 replacement
      [GlyphRule.single (.before (pattern.drop 1)) target replacement line] := by
  obtain ⟨_, hnodup, _, hafter⟩ := nodup_around_target hn ht
  have hne : pattern.drop 1 ≠ [] := by
    rw [ne_eq, List.drop_eq_nil_iff]
    omega
  have hgroups : RuleGroup.adjacentGroups .before
      [GlyphRule.single (.before (pattern.drop 1)) target replacement line] = _ :=
    RuleGroup.adjacentGroups_beside rfl
  obtain ⟨tables, hreturns, happly⟩ := returns_single hne rfl (by
    unfold RuleGroup.ofRules
    rw [hgroups]
    rfl)
  refine ⟨tables, hreturns, ?_⟩
  intro run _
  rw [happly, ← mapIdx_standsIn ht]
  have hrun := run_beside_before (x := replacement) hne hnodup hafter run
  refine hrun.trans (StateTable.mapIdx_congr ?_)
  intro i g _
  simp [singletons, and_comm]

theorem meansPattern_last (hn : pattern.Nodup) (ht : pattern[index]? = some target)
    (h0 : 0 < index) (hlast : index + 1 = pattern.length) :
    MeansPattern pattern index replacement
      [GlyphRule.single (.after (pattern.take index)) target replacement line] := by
  obtain ⟨hnodup, _, hbefore, _⟩ := nodup_around_target hn ht
  have hne : pattern.take index ≠ [] := by
    rw [← List.length_pos_iff, List.length_take]
    omega
  have hgroups : RuleGroup.adjacentGroups .after
      [GlyphRule.single (.after (pattern.take index)) target replacement line] = _ :=
    RuleGroup.adjacentGroups_beside rfl
  obtain ⟨tables, hreturns, happly⟩ := returns_single hne rfl (by
    unfold RuleGroup.ofRules
    rw [hgroups]
    rfl)
  refine ⟨tables, hreturns, ?_⟩
  intro run _
  have hdrop : pattern.drop (index + 1) = [] := List.drop_of_length_le (by omega)
  rw [happly, ← mapIdx_standsIn ht, hdrop]
  have hrun := run_beside_after (x := replacement) hne hnodup hbefore run
  refine hrun.trans (StateTable.mapIdx_congr ?_)
  intro i g _
  simp [singletons]

theorem meansPattern_inner {temp : Glyph} (hn : pattern.Nodup)
    (ht : pattern[index]? = some target) (h0 : 0 < index) (hlast : index + 1 < pattern.length) :
    MeansPattern pattern index replacement
      (apartRules line index pattern target replacement temp) := by
  obtain ⟨hbefore, hafter, htb, hta⟩ := nodup_around_target hn ht
  have hb : pattern.take index ≠ [] := by
    rw [← List.length_pos_iff, List.length_take]
    omega
  have ha : pattern.drop (index + 1) ≠ [] := by
    rw [ne_eq, List.drop_eq_nil_iff]
    omega
  obtain ⟨tables, hreturns, happly⟩ := returns_apartRules hb ha
  refine ⟨tables, hreturns, ?_⟩
  intro run htemps
  obtain ⟨hnew, hrun⟩ := htemps temp (List.mem_singleton.mpr rfl)
  have htemp : temp ∉ pattern.drop (index + 1) := fun hmem =>
    hnew (List.mem_cons_of_mem _ (List.mem_of_mem_drop hmem))
  have hr : replacement ≠ temp := fun he => hnew (he ▸ List.mem_cons_self)
  rw [happly, run_apart hb ha hbefore hafter htb hta htemp hr hrun, mapIdx_standsIn ht]

/-- The glyph rules of a rule written glyph by glyph have the meaning of its pattern. -/
theorem exec_glyphRules_means (registry : Registry) (base : UInt16) (hl : 2 ≤ pattern.length)
    (hn : pattern.Nodup) (ht : pattern[index]? = some target) (replacement : Glyph) (line : Nat)
    (wildcard : Option Wildcard) :
    ∃ rules s,
      exec ((literal pattern target replacement line wildcard).glyphRules registry)
        (Session.fresh base) = (.ok rules, s) ∧ MeansPattern pattern index replacement rules := by
  have hi := (List.getElem?_eq_some_iff.mp ht).1
  have hfind := findIdx?_of_nodup hn ht
  have hlength : (singletons pattern).length = pattern.length := List.length_map _
  have hrules : ∃ rules s, exec (ContextualRule.splitRules line index (singletons pattern) target
      replacement 0) (Session.fresh base) = (.ok rules, s) ∧
        MeansPattern pattern index replacement rules := by
    unfold ContextualRule.splitRules
    rw [ContextualRule.column_literal, hlength]
    split
    next h0 =>
      subst h0
      exact ⟨_, _, rfl, meansPattern_first hl hn ht⟩
    next h0 =>
      split
      next hlast => exact ⟨_, _, rfl, meansPattern_last hn ht (by omega) hlast⟩
      next hlast =>
        obtain ⟨s, hs⟩ := exec_temporary_fresh base ⟨.decomposed, line, 0, 0⟩
        exact ⟨_, s, ContextualRule.exec_takeApart hs,
          meansPattern_inner hn ht (by omega) (by omega)⟩
  obtain ⟨rules, m, hm, hmeans⟩ := hrules
  have hsplit := exec_splitAtTarget_literal hfind hm (.glyph target)
  obtain ⟨s, hs⟩ := ContextualRule.exec_glyphRules_literal hl hsplit
  exact ⟨rules, s, hs, hmeans⟩

/-- The arena keeps what the glyph rules of the one rule have been given. -/
theorem compileRules_extends {classes : List GlyphClass} {registry : Registry}
    (hr : Registry.ofClasses classes = .ok registry) {config : Config} {rule : ContextualRule}
    {rules : List GlyphRule} {document : Document} {s s' s'' : Session}
    (h : exec (rule.glyphRules registry) s = (.ok rules, s'))
    (hd : exec (compileRules ContextualRule.subtables classes config [rule]) s =
      (.ok document, s'')) : s'.arena.Extends s''.arena := by
  unfold compileRules at hd
  rw [hr] at hd
  obtain ⟨tables, m, hsubtables, hd⟩ := exec_bind_ok hd
  obtain ⟨all, m', hall, htables⟩ := exec_bind_ok hsubtables
  obtain ⟨perRule, m'', hper, hreport⟩ := exec_bind_ok hall
  have hlast : m = s'' := (Prod.mk.inj hd).2
  have hreported : m''.arena = m'.arena := by
    obtain ⟨_, hm⟩ := Prod.mk.inj hreport
    rw [← hm]
  rw [List.mapM_cons, List.mapM_nil] at hper
  simp only [pure_bind] at hper
  rw [exec_bind_of_ok h] at hper
  have hsame : s' = m'' := (Prod.mk.inj hper).2
  have hgrown := (composed_allSubtables all).grows.of_exec htables
  rwa [← hlast, hsame, hreported]

end Literal

/-- The rule `when pattern: target => replacement` rewrites the target exactly where it stands in
the pattern with each glyph between it and an end of the pattern once or several times in a row. So
it is rewritten in every occurrence of the pattern, and only there if none of these glyphs stands
twice in a row. -/
theorem when_rewrites_stretched {classes : List GlyphClass} {registry : Registry}
    (hclasses : Registry.ofClasses classes = .ok registry) (config : Config)
    {pattern : List Glyph} (hl : 2 ≤ pattern.length) (hn : pattern.Nodup) {index : Nat}
    {target : Glyph} (ht : pattern[index]? = some target) (replacement : Glyph) (line : Nat)
    (wildcard : Option Wildcard) :
    ∃ document s,
      exec (compileRules ContextualRule.subtables classes config
        [literal pattern target replacement line wildcard]) (Session.fresh config.tempBase) =
          (.ok document, s) ∧
      ∀ run, (∀ g ∈ replacement :: pattern ++ run, g ∉ s.arena.names) →
        Subtable.applyAll document.subtables run =
          (run.mapIdx fun i g => if standsIn pattern index run i then replacement else g) ∧
        (∀ before after, run = before ++ pattern ++ after →
          standsIn pattern index run (before.length + index) = true) ∧
        ((∀ g ∈ inner pattern index, ¬[g, g] <:+: run) → ∀ i, standsIn pattern index run i = true →
          ∃ before after, run = before ++ pattern ++ after ∧ i = before.length + index) := by
  have hi := (List.getElem?_eq_some_iff.mp ht).1
  obtain ⟨rules, s', hrules, tables, htables, hmeans⟩ :=
    exec_glyphRules_means registry config.tempBase hl hn ht replacement line wildcard
  obtain ⟨s, hs⟩ := exec_compileRules_single hclasses config hrules htables
  refine ⟨_, s, hs, ?_⟩
  intro run hfree
  have hnames : ∀ temp ∈ temporaries rules, temp ∈ s.arena.names := by
    intro temp htemp
    obtain ⟨k, hk⟩ := List.mem_iff_getElem?.mp htemp
    obtain ⟨code, hcode, rfl⟩ := ContextualRule.glyphRules_temporaries hrules hk
    exact Arena.mem_names (compileRules_extends hclasses hrules hs _ _ hcode)
  refine ⟨hmeans run ?_, ?_, ?_⟩
  · intro temp htemp
    have hin := hnames temp htemp
    exact ⟨fun hmem => hfree temp (List.mem_append_left _ hmem) hin,
      fun hmem => hfree temp (List.mem_append_right _ hmem) hin⟩
  · rintro before after rfl
    exact standsIn_of_occurrence hi before after
  · exact fun hinner i hstands => occurrence_of_standsIn hi hinner hstands

/-- A target inside a pattern of five glyphs, in an occurrence and where the pattern is broken
off. -/
theorem when_rewrites_stretched_inside :
    ∃ document s,
      exec (compileRules ContextualRule.subtables [] ⟨"Test", 0, defaultTempBase⟩
        [literal ["a", "b", "c", "d", "e"] "c" "x" 1 none]) (Session.fresh defaultTempBase) =
          (.ok document, s) ∧
      s.arena.names = ["65000"] ∧
      Subtable.applyAll document.subtables ["a", "b", "c", "d", "a", "b", "c", "d", "e"] =
        ["a", "b", "c", "d", "a", "b", "x", "d", "e"] := by
  have hmade : ∃ document s,
      exec (compileRules ContextualRule.subtables [] ⟨"Test", 0, defaultTempBase⟩
        [literal ["a", "b", "c", "d", "e"] "c" "x" 1 none]) (Session.fresh defaultTempBase) =
          (.ok document, s) ∧ s.arena.names = ["65000"] := ⟨_, _, rfl, by decide⟩
  obtain ⟨document, s, h, hnames⟩ := hmade
  refine ⟨document, s, h, hnames, ?_⟩
  have ht : ["a", "b", "c", "d", "e"][2]? = some "c" := rfl
  obtain ⟨document', s', h', hmeans⟩ := when_rewrites_stretched
    (rfl : Registry.ofClasses [] = .ok .empty) ⟨"Test", 0, defaultTempBase⟩ (by decide) (by decide)
    ht "x" 1 none
  rw [h] at h'
  cases h'
  have hrun := (hmeans ["a", "b", "c", "d", "a", "b", "c", "d", "e"] (by rw [hnames]; decide)).1
  rw [hrun]
  decide

/-- The target is also rewritten where the pattern does not occur: a glyph of the pattern may stand
twice. -/
theorem when_rewrites_doubled_context :
    ∃ document s,
      exec (compileRules ContextualRule.subtables [] ⟨"Test", 0, defaultTempBase⟩
        [literal ["a", "b", "c"] "c" "x" 1 none]) (Session.fresh defaultTempBase) =
          (.ok document, s) ∧
      s.arena.names = [] ∧ ¬["a", "b", "c"] <:+: ["a", "b", "b", "c"] ∧
      Subtable.applyAll document.subtables ["a", "b", "b", "c"] = ["a", "b", "b", "x"] :=
  ⟨_, _, rfl, by decide, by decide, by decide⟩

end Metamorphosis
