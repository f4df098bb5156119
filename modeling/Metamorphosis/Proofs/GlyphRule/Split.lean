import Metamorphosis.Proofs.GlyphRule.Expansion
import Metamorphosis.Proofs.GlyphRule.Provenance
import Metamorphosis.Proofs.Growth
import Metamorphosis.Proofs.Selection

namespace Metamorphosis

open CompileM

namespace ContextualRule

/-- The rule `when pattern: target => replacement`, written glyph by glyph. -/
def literal (pattern : List Glyph) (target replacement : Glyph) (line : Nat)
    (wildcard : Option Wildcard) : ContextualRule :=
  ⟨.when (pattern.map .glyph), [⟨.glyph target, .glyph replacement, wildcard⟩], line⟩

section Inversion

variable {registry : Registry} {rule : ContextualRule} {rules : List GlyphRule}

/-- The glyph rules of a rule before they are reported. -/
def unreported (registry : Registry) (rule : ContextualRule) : CompileM (List GlyphRule) :=
  match rule.context with
  | .after pattern => CompileM.atLine rule.line (rule.adjacentRules registry .after pattern)
  | .before pattern => CompileM.atLine rule.line (rule.adjacentRules registry .before pattern)
  | .between first second => CompileM.atLine rule.line (rule.betweenRules registry first second)
  | .when pattern => rule.whenRules registry pattern

theorem glyphRules_eq (hne : rule.pairs ≠ []) :
    rule.glyphRules registry = rule.unreported registry >>= fun rules => do
      reportAll (rules.map .glyphRule)
      return rules := by
  have hp : rule.pairs.isEmpty = false := List.isEmpty_eq_false_iff.mpr hne
  unfold glyphRules unreported
  rw [hp]
  cases rule.context <;> rfl

theorem glyphRules_of_nil (h : rule.pairs = []) (s : Session) :
    exec (rule.glyphRules registry) s =
      (.error (.invalidRule (some rule.line) .noSubstitutions), s) := by
  unfold glyphRules
  rw [h]
  rfl

/-- Reporting the glyph rules changes neither what they are nor the arena. -/
theorem exec_glyphRules (hne : rule.pairs ≠ []) (s : Session) :
    ∃ events, exec (rule.glyphRules registry) s = ((exec (rule.unreported registry) s).1,
      { (exec (rule.unreported registry) s).2 with events := events }) := by
  rw [glyphRules_eq hne, exec_bind]
  cases exec (rule.unreported registry) s with
  | mk result m =>
    cases result with
    | error e => exact ⟨m.events, rfl⟩
    | ok rules => exact ⟨_, rfl⟩

theorem exec_glyphRules_ok {s s' : Session}
    (h : exec (rule.glyphRules registry) s = (.ok rules, s')) :
    ∃ m, exec (rule.unreported registry) s = (.ok rules, m) ∧ m.arena = s'.arena ∧
      rule.pairs ≠ [] := by
  by_cases hne : rule.pairs = []
  · rw [glyphRules_of_nil hne] at h
    cases h
  · obtain ⟨events, he⟩ := exec_glyphRules hne s
    rw [he] at h
    obtain ⟨hresult, rfl⟩ := Prod.mk.inj h
    exact ⟨_, Prod.ext hresult rfl, rfl, hne⟩

theorem whenPairs_single_ok {pair : Pair} {size : Nat} {sides : List (List Glyph × List Glyph)}
    (h : whenPairs registry [pair] size = .ok sides) :
    ∃ targets replacements, sides = [(targets, replacements)] ∧
      pair.glyphs registry = .ok (targets, replacements) ∧ targets.length = size := by
  obtain ⟨side, rest, ⟨hglyphs, hsize⟩, hrest, rfl⟩ :=
    List.forall₂_cons_left_iff.mp (whenPairs_ok_iff.mp h)
  rw [List.forall₂_nil_left_iff.mp hrest]
  exact ⟨side.1, side.2, rfl, hglyphs, hsize⟩

/-- A `when` rule with one substitution is split, any other has a rule with the whole pattern for
each combination. -/
theorem whenRules_ok {pattern : List Element} {s s' : Session}
    (h : exec (rule.whenRules registry pattern) s = (.ok rules, s')) :
    ∃ positions size, whenPositions registry pattern = .ok (positions, size) ∧
      ((∃ pair targets replacements m, rule.pairs = [pair] ∧
        pair.glyphs registry = .ok (targets, replacements) ∧ targets.length = size ∧
        exec (splitAtTarget rule.line positions pair.target targets replacements) m =
          (.ok rules, s')) ∨
      (rule.pairs.length ≠ 1 ∧ ∃ sides, whenPairs registry rule.pairs size = .ok sides ∧
        rules = (List.range size).map fun k => wholeRule rule.line k positions sides)) := by
  obtain ⟨⟨positions, size⟩, m, hpositions, h⟩ := exec_bind_ok h
  obtain ⟨sides, m', hsides, h⟩ := exec_bind_ok h
  refine ⟨positions, size, (exec_atLine_inv hpositions).1, ?_⟩
  have hpairs := (exec_atLine_inv hsides).1
  by_cases hone : rule.pairs.length = 1
  · left
    obtain ⟨pair, hp⟩ := List.length_eq_one_iff.mp hone
    rw [hp] at hpairs h
    obtain ⟨targets, replacements, rfl, hglyphs, hsize⟩ := whenPairs_single_ok hpairs
    exact ⟨pair, targets, replacements, m', hp, hglyphs, hsize, h⟩
  · right
    refine ⟨hone, sides, hpairs, ?_⟩
    split at h
    next pair _ _ hp => simp [hp] at hone
    next => exact (exec_pure_ok h).symm

/-- What the rules of one target are, by the place of the index in the pattern. -/
theorem splitRules_ok {line index : Nat} {positions : List (List Glyph)} {t r : Glyph} {k : Nat}
    {own : List GlyphRule} {s s' : Session}
    (h : exec (splitRules line index positions t r k) s = (.ok own, s')) :
    (index = 0 ∧ own = [GlyphRule.single (.before ((column positions k).drop 1)) t r line]) ∨
    (index + 1 = positions.length ∧
      own = [GlyphRule.single (.after ((column positions k).take index)) t r line]) ∨
    (0 < index ∧ index + 1 ≠ positions.length ∧ ∃ code,
      s'.arena.code? ⟨.decomposed, line, k, 0⟩ = some code ∧
      own = apartRules line index (column positions k) t r (toString code)) := by
  unfold splitRules at h
  split at h
  next h0 => exact Or.inl ⟨h0, (exec_pure_ok h).symm⟩
  next h0 =>
    split at h
    next hlast => exact Or.inr (Or.inl ⟨hlast, (exec_pure_ok h).symm⟩)
    next hlast =>
      obtain ⟨temp, m, htemp, hrest⟩ := exec_bind_ok h
      rw [exec_takeApart htemp] at h
      obtain ⟨hown, rfl⟩ := Prod.mk.inj h
      obtain ⟨code, hcode, rfl, _⟩ := exec_temporary_ok htemp
      exact Or.inr (Or.inr ⟨by omega, hlast, code, hcode, (Except.ok.inj hown).symm⟩)

/-- The rules of a split pattern are those of its targets in order. -/
theorem splitAtTarget_ok {line : Nat} {positions : List (List Glyph)} {target : Element}
    {targets replacements : List Glyph} {s s' : Session}
    (h : exec (splitAtTarget line positions target targets replacements) s = (.ok rules, s')) :
    ∃ index perTarget,
      positions.findIdx? (fun position => position.any targets.contains) = some index ∧
      rules = perTarget.flatten ∧
      List.Forall₂ (fun x own => ∃ before after,
        exec (splitRules line index positions x.1.1 x.1.2 x.2) before = (.ok own, after) ∧
          after.arena.Extends s'.arena) (targets.zip replacements).zipIdx perTarget := by
  rw [splitAtTarget_eq] at h
  split at h
  next => cases h
  next index hindex =>
    obtain ⟨perTarget, m, hper, h⟩ := exec_bind_ok h
    obtain ⟨hrules, rfl⟩ := Prod.mk.inj h
    refine ⟨index, perTarget, hindex, (Except.ok.inj hrules).symm, ?_⟩
    have hcomposed : ∀ x : (Glyph × Glyph) × Nat,
        Composed True (splitRules line index positions x.1.1 x.1.2 x.2) :=
      fun x => composed_splitRules line index positions x.1.1 x.1.2 x.2
    exact exec_mapM_grows hcomposed hper

end Inversion

section Columns

variable {positions : List (List Glyph)} {k : Nat}

theorem length_column (h : ∀ position ∈ positions, k < position.length) :
    (column positions k).length = positions.length :=
  (isColumn_column h).length_eq.symm

theorem commonSize_ok {entries : List (Element × List Glyph)} {size : Nat}
    (h : commonSize entries = .ok size) : ∀ entry ∈ entries, entry.2.length = size := by
  cases entries with
  | nil => simp
  | cons first rest =>
    obtain ⟨element, glyphs⟩ := first
    rw [commonSize] at h
    split at h
    next => cases h
    next hf =>
      have hsize : glyphs.length = size := Except.ok.inj h
      intro entry hentry
      rcases List.mem_cons.mp hentry with rfl | hentry
      · exact hsize
      · have hn := List.find?_eq_none.mp hf entry hentry
        have he : entry.2.length = glyphs.length := by simpa using hn
        exact he.trans hsize

/-- Positions of one size have that size each. -/
theorem length_of_commonSize {elements : List Element} {size : Nat}
    (hlength : positions.length = elements.length)
    (h : commonSize (elements.zip positions) = .ok size) :
    ∀ position ∈ positions, position.length = size := by
  intro position hp
  obtain ⟨i, hi⟩ := List.mem_iff_getElem?.mp hp
  have hlt := (List.getElem?_eq_some_iff.mp hi).1
  have hentry : (elements[i], position) ∈ elements.zip positions := by
    apply List.mem_of_getElem? (i := i)
    rw [List.getElem?_zip_eq_some]
    exact ⟨List.getElem?_eq_getElem (by omega), hi⟩
  exact commonSize_ok h _ hentry

theorem commonSize_of_forall {entries : List (Element × List Glyph)} {size : Nat}
    (hne : entries ≠ []) (h : ∀ entry ∈ entries, entry.2.length = size) :
    commonSize entries = .ok size := by
  cases entries with
  | nil => exact absurd rfl hne
  | cons first rest =>
    obtain ⟨element, glyphs⟩ := first
    have hsize : glyphs.length = size := h (element, glyphs) List.mem_cons_self
    have hnone : rest.find? (fun entry => entry.2.length != glyphs.length) = none := by
      rw [List.find?_eq_none]
      intro entry hentry
      simp [hsize, h entry (List.mem_cons_of_mem _ hentry)]
    rw [commonSize, hnone, hsize]

/-- Positions have a common size if all have that size. -/
theorem commonSize_zip_ok_iff {elements : List Element} {size : Nat}
    (hlength : positions.length = elements.length) (hne : elements ≠ []) :
    commonSize (elements.zip positions) = .ok size ↔
      ∀ position ∈ positions, position.length = size := by
  constructor
  · exact length_of_commonSize hlength
  · intro h
    refine commonSize_of_forall ?_ fun entry hentry => h entry.2 (List.of_mem_zip hentry).2
    have hpos : 0 < elements.length := List.length_pos_iff.mpr hne
    have hzip : (elements.zip positions).length = elements.length := by
      rw [List.length_zip]
      omega
    exact List.length_pos_iff.mp (by omega)

/-- A pattern of two elements or more has positions of one size, if it has any. -/
theorem whenPositions_ok_iff {registry : Registry} {pattern : List Element} {size : Nat} :
    whenPositions registry pattern = .ok (positions, size) ↔
      2 ≤ pattern.length ∧ registry.positionsOf pattern = .ok positions ∧
        ∀ position ∈ positions, position.length = size := by
  unfold whenPositions
  dsimp only
  rw [except_guard_ok_iff, except_bind_ok_iff, Nat.not_lt]
  refine and_congr_right fun htwo => ?_
  have hne : pattern ≠ [] := List.length_pos_iff.mp (by omega)
  constructor
  · intro h
    obtain ⟨resolved, hresolved, h⟩ := h
    split at h
    next common hcommon =>
      obtain ⟨rfl, rfl⟩ := Prod.mk.inj (Except.ok.inj h)
      exact ⟨hresolved, length_of_commonSize (length_of_mapM_ok hresolved) hcommon⟩
    next => cases h
  · intro h
    obtain ⟨hresolved, hsizes⟩ := h
    refine ⟨positions, hresolved, ?_⟩
    rw [(commonSize_zip_ok_iff (length_of_mapM_ok hresolved) hne).mpr hsizes]
    rfl

theorem whenPositions_ok {registry : Registry} {pattern : List Element} {size : Nat}
    (h : whenPositions registry pattern = .ok (positions, size)) :
    registry.positionsOf pattern = .ok positions ∧
      ∀ position ∈ positions, position.length = size :=
  (whenPositions_ok_iff.mp h).2

end Columns

section Reassembly

/-- The pattern that the rules of one combination stand for together. -/
def reassembled? : List GlyphRule → Option (List Glyph)
  | [rule] =>
    match rule.site, rule.pairs with
    | .context (.before pattern), [(target, _)] => some (target :: pattern)
    | .context (.after pattern), [(target, _)] => some (pattern ++ [target])
    | _, _ => none
  | [first, second, cleanup] =>
    match first.site, first.pairs, second.site with
    | .context (.after before), [(target, temp)], .context (.before after) =>
      if second.pairs.map Prod.fst = [temp] ∧ cleanup.site = .cleanup temp ∧
          cleanup.pairs = [(temp, target)] then some (before ++ target :: after)
      else none
    | _, _, _ => none
  | _ => none

/-- The rules of the `k`-th of several combinations, which have equally many. -/
def combination (rules : List GlyphRule) (size k : Nat) : List GlyphRule :=
  (rules.drop (k * (rules.length / size))).take (rules.length / size)

variable {line index k : Nat} {positions : List (List Glyph)} {t r : Glyph}
  {own : List GlyphRule} {s s' : Session}

/-- The rules of a target stand for the column with the target at the index of the split. -/
theorem reassembled_splitRules (hlen : (column positions k).length = positions.length)
    (hi : index < positions.length)
    (h : exec (splitRules line index positions t r k) s = (.ok own, s')) :
    reassembled? own = some ((column positions k).set index t) := by
  have hset : (column positions k).set index t =
      (column positions k).take index ++ t :: (column positions k).drop (index + 1) := by
    rw [List.set_eq_take_append_cons_drop, if_pos (by omega)]
  rw [hset]
  rcases splitRules_ok h with ⟨rfl, rfl⟩ | ⟨hlast, rfl⟩ | ⟨_, _, code, _, rfl⟩
  · rfl
  · have hdrop : (column positions k).drop (index + 1) = [] :=
      List.drop_of_length_le (by omega)
    rw [hdrop]
    rfl
  · simp [apartRules, reassembled?]

/-- How many rules a target has depends on the index of the split only. -/
theorem length_splitRules
    (h : exec (splitRules line index positions t r k) s = (.ok own, s')) :
    own.length = if index = 0 ∨ index + 1 = positions.length then 1 else 3 := by
  rcases splitRules_ok h with ⟨h0, rfl⟩ | ⟨hlast, rfl⟩ | ⟨h0, hlast, code, _, rfl⟩
  · rw [if_pos (Or.inl h0)]
    rfl
  · rw [if_pos (Or.inr hlast)]
    rfl
  · rw [if_neg (by omega)]
    rfl

theorem length_flatten_uniform {α : Type} {w : Nat} {xss : List (List α)}
    (h : ∀ xs ∈ xss, xs.length = w) : xss.flatten.length = xss.length * w := by
  induction xss with
  | nil => simp
  | cons xs xss ih =>
    rw [List.flatten_cons, List.length_append, h xs List.mem_cons_self,
      ih fun ys hy => h ys (List.mem_cons_of_mem _ hy), List.length_cons, Nat.succ_mul,
      Nat.add_comm]

theorem take_drop_flatten_uniform {α : Type} {w : Nat} {xss : List (List α)}
    (h : ∀ xs ∈ xss, xs.length = w) {k : Nat} {xs : List α} (hk : xss[k]? = some xs) :
    (xss.flatten.drop (k * w)).take w = xs := by
  induction xss generalizing k with
  | nil => cases hk
  | cons ys xss ih =>
    have hys := h ys List.mem_cons_self
    rw [List.flatten_cons]
    cases k with
    | zero =>
      have he : ys = xs := Option.some.inj hk
      rw [Nat.zero_mul, List.drop_zero, ← hys, List.take_left, he]
    | succ k =>
      have hskip : (k + 1) * w = ys.length + k * w := by
        rw [Nat.succ_mul, hys, Nat.add_comm]
      rw [hskip, List.drop_length_add_append]
      exact ih (fun zs hz => h zs (List.mem_cons_of_mem _ hz)) hk

theorem forall₂_getElem? {α β : Type} {R : α → β → Prop} {xs : List α} {ys : List β}
    (h : List.Forall₂ R xs ys) {k : Nat} {x : α} (hx : xs[k]? = some x) :
    ∃ y, ys[k]? = some y ∧ R x y := by
  induction h generalizing k with
  | nil => cases hx
  | @cons a b _ _ hab _ ih =>
    cases k with
    | zero =>
      obtain rfl : a = x := Option.some.inj hx
      exact ⟨b, rfl, hab⟩
    | succ k => exact ih hx

/-- The rules of a combination are those of its target. -/
theorem combination_flatten {w size : Nat} {perTarget : List (List GlyphRule)}
    (hlen : perTarget.length = size) (hw : ∀ own ∈ perTarget, own.length = w)
    (hk : perTarget[k]? = some own) : combination perTarget.flatten size k = own := by
  have hlt := (List.getElem?_eq_some_iff.mp hk).1
  have hwidth : perTarget.flatten.length / size = w := by
    rw [length_flatten_uniform hw, hlen, Nat.mul_div_cancel_left w (by omega)]
  rw [combination, hwidth]
  exact take_drop_flatten_uniform hw hk

theorem set_eq_self_iff {α : Type} {xs : List α} {i : Nat} (hi : i < xs.length) {x : α} :
    xs.set i x = xs ↔ xs[i]? = some x := by
  constructor
  · intro h
    rw [← h, List.getElem?_set_self hi]
  · intro h
    obtain ⟨_, rfl⟩ := List.getElem?_eq_some_iff.mp h
    exact List.set_getElem_self hi

theorem getElem?_zip_zipIdx {α β : Type} {xs : List α} {ys : List β} {k : Nat} {x : α} {y : β}
    (hx : xs[k]? = some x) (hy : ys[k]? = some y) :
    (xs.zip ys).zipIdx[k]? = some ((x, y), k) := by
  have hzip : (xs.zip ys)[k]? = some (x, y) := List.getElem?_zip_eq_some.mpr ⟨hx, hy⟩
  rw [List.getElem?_zipIdx, hzip, Nat.zero_add]
  rfl

/-- The rules of a combination stand for its column with the target where the rule is split. -/
theorem reassembled_combination {size : Nat} {target : Element} {targets replacements : List Glyph}
    {rules : List GlyphRule} (huniform : ∀ p ∈ positions, p.length = size)
    (htargets : targets.length = size) (hsides : targets.length = replacements.length)
    (h : exec (splitAtTarget line positions target targets replacements) s = (.ok rules, s')) :
    ∃ index, positions.findIdx? (fun position => position.any targets.contains) = some index ∧
      ∀ k t, targets[k]? = some t → reassembled? (combination rules targets.length k) =
        some ((column positions k).set index t) := by
  obtain ⟨index, perTarget, hindex, rfl, hrules⟩ := splitAtTarget_ok h
  refine ⟨index, hindex, ?_⟩
  intro k t ht
  have hk := (List.getElem?_eq_some_iff.mp ht).1
  obtain ⟨replacement, hreplacement⟩ : ∃ r, replacements[k]? = some r :=
    ⟨_, List.getElem?_eq_getElem (by omega)⟩
  have hpair := getElem?_zip_zipIdx ht hreplacement
  -- the rules of the combination are those made for its target
  obtain ⟨own, hown, before, after, hexec, _⟩ := forall₂_getElem? hrules hpair
  have hlength : perTarget.length = targets.length := by
    rw [← hrules.length_eq, List.length_zipIdx, List.length_zip, ← hsides, Nat.min_self]
  have hwidth : ∀ own ∈ perTarget,
      own.length = if index = 0 ∨ index + 1 = positions.length then 1 else 3 := by
    intro own hmem
    obtain ⟨x, _, _, _, hx, _⟩ := forall₂_of_mem_right hrules own hmem
    exact length_splitRules hx
  have hcolumn : (column positions k).length = positions.length :=
    length_column fun p hp => by rw [huniform p hp]; omega
  have hi : index < positions.length := (List.findIdx?_eq_some_iff_getElem.mp hindex).1
  rw [combination_flatten hlength hwidth hown]
  exact reassembled_splitRules hcolumn hi hexec

end Reassembly

end ContextualRule

open ContextualRule

/-- For every combination, the rules stand for its column with the target at the first position that
shares a glyph with the targets; that is the column itself exactly if the target stands there. -/
theorem split_reassembles_columns {registry : Registry} {pattern : List Element} {pair : Pair}
    {line : Nat} {rules : List GlyphRule} {s s' : Session}
    (h : exec (glyphRules registry ⟨.when pattern, [pair], line⟩) s = (.ok rules, s')) :
    ∃ positions targets index,
      registry.positionsOf pattern = .ok positions ∧
      registry.glyphsOf pair.target = .ok targets ∧
      (∀ position ∈ positions, position.length = targets.length) ∧
      positions.findIdx? (fun position => position.any targets.contains) = some index ∧
      ∀ k target, targets[k]? = some target →
        reassembled? (combination rules targets.length k) =
          some ((column positions k).set index target) ∧
        (reassembled? (combination rules targets.length k) = some (column positions k) ↔
          (column positions k)[index]? = some target) := by
  obtain ⟨m, hm, _⟩ := exec_glyphRules_ok h
  obtain ⟨positions, size, hpositions, hsplit | ⟨hone, _⟩⟩ := whenRules_ok hm
  · obtain ⟨pair', targets, replacements, m', hpair, hglyphs, hsize, hsplit⟩ := hsplit
    obtain rfl : pair = pair' := (List.cons.inj hpair).1
    obtain ⟨hresolved, huniform⟩ := whenPositions_ok hpositions
    obtain ⟨index, hindex, hreassembled⟩ :=
      reassembled_combination huniform hsize (Pair.glyphs_length hglyphs) hsplit
    refine ⟨positions, targets, index, hresolved, (Pair.glyphs_ok hglyphs).1,
      fun p hp => (huniform p hp).trans hsize.symm, hindex, ?_⟩
    intro k target htarget
    have hk := (List.getElem?_eq_some_iff.mp htarget).1
    have hcolumn : (column positions k).length = positions.length :=
      length_column fun p hp => by rw [huniform p hp]; omega
    have hi : index < positions.length := (List.findIdx?_eq_some_iff_getElem.mp hindex).1
    refine ⟨hreassembled k target htarget, ?_⟩
    rw [hreassembled k target htarget, Option.some.injEq]
    exact set_eq_self_iff (by omega)
  · exact absurd rfl hone

/-- A target class inside a pattern of classes that have no glyph in common with it: the second
combination is put together again. -/
theorem split_reassembles_columns_inside :
    ∃ registry rules s,
      Registry.ofClasses [⟨"P", ["p", "q"]⟩, ⟨"T", ["t", "u"]⟩, ⟨"R", ["x", "y"]⟩] = .ok registry ∧
      exec (glyphRules registry ⟨.when [.classRef "P", .classRef "T", .classRef "P"],
        [⟨.classRef "T", .classRef "R", none⟩], 1⟩) (Session.fresh defaultTempBase) =
          (.ok rules, s) ∧
      reassembled? (combination rules 2 1) =
        some (column [["p", "q"], ["t", "u"], ["p", "q"]] 1) := by
  have hrules : ∃ registry rules s,
      Registry.ofClasses [⟨"P", ["p", "q"]⟩, ⟨"T", ["t", "u"]⟩, ⟨"R", ["x", "y"]⟩] = .ok registry ∧
      exec (glyphRules registry ⟨.when [.classRef "P", .classRef "T", .classRef "P"],
        [⟨.classRef "T", .classRef "R", none⟩], 1⟩) (Session.fresh defaultTempBase) =
          (.ok rules, s) ∧
      registry.positionsOf [.classRef "P", .classRef "T", .classRef "P"] =
        .ok [["p", "q"], ["t", "u"], ["p", "q"]] ∧
      registry.glyphsOf (.classRef "T") = .ok ["t", "u"] := ⟨_, _, _, rfl, rfl, rfl, rfl⟩
  obtain ⟨registry, rules, s, hclasses, h, hpositions, htargets⟩ := hrules
  refine ⟨registry, rules, s, hclasses, h, ?_⟩
  obtain ⟨positions, targets, index, hp, ht, _, hindex, hall⟩ := split_reassembles_columns h
  obtain rfl := Except.ok.inj (hp.symm.trans hpositions)
  obtain rfl := Except.ok.inj (ht.symm.trans htargets)
  obtain rfl : 1 = index := Option.some.inj hindex
  exact (hall 1 "u" rfl).2.mpr rfl

/-- The first position shares a glyph with the targets, though the targets stand at the second one:
the first combination has the column `b a` and its rule the pattern `a a`. -/
theorem split_at_another_position :
    ∃ registry rules s,
      Registry.ofClasses [⟨"A", ["a", "b"]⟩, ⟨"B", ["b", "c"]⟩, ⟨"R", ["x", "y"]⟩] = .ok registry ∧
      exec (glyphRules registry ⟨.when [.classRef "B", .classRef "A"],
        [⟨.classRef "A", .classRef "R", none⟩], 1⟩) (Session.fresh defaultTempBase) =
          (.ok rules, s) ∧
      registry.positionsOf [.classRef "B", .classRef "A"] = .ok [["b", "c"], ["a", "b"]] ∧
      column [["b", "c"], ["a", "b"]] 0 = ["b", "a"] ∧
      reassembled? (combination rules 2 0) = some ["a", "a"] :=
  ⟨_, _, _, rfl, rfl, rfl, rfl, rfl⟩

end Metamorphosis
