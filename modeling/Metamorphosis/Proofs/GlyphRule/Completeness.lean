import Metamorphosis.Proofs.GlyphRule.Product
import Metamorphosis.Proofs.GlyphRule.Whole

namespace Metamorphosis

open CompileM

/-- The position has a glyph in common with the targets. -/
def Meets (targets position : List Glyph) : Prop :=
  ∃ g ∈ position, g ∈ targets

/-- The position with this index, and none before it, has a glyph in common with the targets. -/
def FirstMeets (positions : List (List Glyph)) (targets : List Glyph) (index : Nat) : Prop :=
  (∃ position, positions[index]? = some position ∧ Meets targets position) ∧
    ∀ i < index, ∀ position, positions[i]? = some position → ¬Meets targets position

/-- The key of the temporary glyph of the `k`-th target. -/
def apartKey (line k : Nat) : TempKey :=
  ⟨.decomposed, line, k, 0⟩

/-- What is left of a pattern around a target at one of its ends. -/
def endContext (index : Nat) (pattern : List Glyph) : Context Glyph :=
  if index = 0 then .before (pattern.drop 1) else .after (pattern.take index)

section Outcomes

variable (line n : Nat) (positions : List (List Glyph))

/-- For each index a rule with the glyphs of all positions and substitutions at that index. -/
structure KeepsPattern (sides : List (List Glyph × List Glyph)) (rules : List GlyphRule) : Prop where
  length_eq : rules.length = n
  rule_eq : ∀ k < n, ∃ pattern pairs, IsColumn positions k pattern ∧
    IsColumn (sides.map Prod.fst) k (pairs.map Prod.fst) ∧
    IsColumn (sides.map Prod.snd) k (pairs.map Prod.snd) ∧
    rules[k]? = some ⟨.context (.when pattern), pairs, line, none⟩

variable (targets replacements : List Glyph) (index : Nat)

/-- For each index a rule with the rest of the pattern as its context. -/
structure SplitsAtEnd (rules : List GlyphRule) : Prop where
  length_eq : rules.length = n
  rule_eq : ∀ k < n, ∃ pattern target replacement, IsColumn positions k pattern ∧
    targets[k]? = some target ∧ replacements[k]? = some replacement ∧
    rules[k]? = some (GlyphRule.single (endContext index pattern) target replacement line)

/-- For each index three rules that share a temporary glyph, which the arena has handed out for
them. -/
structure SplitsInside (rules : List GlyphRule) (before after : Arena) (codes : List Nat) :
    Prop where
  length_eq : rules.length = 3 * n
  codes_length : codes.length = n
  codes_nodup : codes.Nodup
  codes_new : ∀ code ∈ codes, ∀ key, before.code? key ≠ some code
  keys_eq : after.keys = before.keys ++ (List.range n).map (apartKey line)
  code_eq : ∀ k code, codes[k]? = some code → after.code? (apartKey line k) = some code
  rules_eq : ∀ k < n, ∃ pattern target replacement code, IsColumn positions k pattern ∧
    targets[k]? = some target ∧ replacements[k]? = some replacement ∧ codes[k]? = some code ∧
    (rules.drop (3 * k)).take 3 =
      apartRules line index pattern target replacement (toString code)

/-- What a pattern with one substitution becomes, by the place of the target in it. -/
def Splits (rules : List GlyphRule) (before after : Arena) : Prop :=
  ∃ index, FirstMeets positions targets index ∧
    ((index = 0 ∨ index + 1 = positions.length) ∧ after = before ∧
        SplitsAtEnd line n positions targets replacements index rules ∨
      0 < index ∧ index + 1 < positions.length ∧ ∃ codes,
        SplitsInside line n positions targets replacements index rules before after codes)

/-- What a `when` rule becomes. -/
def ExpandsWhen (sides : List (List Glyph × List Glyph)) (rules : List GlyphRule)
    (before after : Arena) : Prop :=
  (sides.length ≠ 1 ∧ after = before ∧ KeepsPattern line n positions sides rules) ∨
    ∃ targets replacements, sides = [(targets, replacements)] ∧
      Splits line n positions targets replacements rules before after

end Outcomes

/-- The targets are not in the pattern, or they are inside it and the arena has too few codes. -/
def Unsplittable (a : Arena) (positions : List (List Glyph)) (targets : List Glyph) : Prop :=
  (∀ position ∈ positions, ¬Meets targets position) ∨
    ∃ index, FirstMeets positions targets index ∧ 0 < index ∧ index + 1 < positions.length ∧
      a.codesLeft < targets.length

/-- The glyphs that the elements of a `when` rule stand for, `n` for each of them. -/
structure Sized (registry : Registry) (pattern : List Element) (pairs : List Pair) (n : Nat)
    (positions : List (List Glyph)) (sides : List (List Glyph × List Glyph)) : Prop where
  two_le : 2 ≤ pattern.length
  positions_eq : registry.positionsOf pattern = .ok positions
  position_length : ∀ position ∈ positions, position.length = n
  sides_eq : List.Forall₂ (fun pair side => registry.glyphsOf pair.target = .ok side.1 ∧
    registry.glyphsOf pair.replacement = .ok side.2 ∧ side.1.length = n ∧ side.2.length = n)
    pairs sides

section Target

variable {positions : List (List Glyph)} {targets : List Glyph} {index : Nat}

theorem any_contains_iff {position : List Glyph} :
    position.any targets.contains = true ↔ Meets targets position := by
  simp [Meets]

theorem findIdx?_eq_some_iff_firstMeets :
    positions.findIdx? (fun position => position.any targets.contains) = some index ↔
      FirstMeets positions targets index := by
  rw [List.findIdx?_eq_some_iff_getElem]
  simp only [any_contains_iff]
  constructor
  · intro h
    obtain ⟨hlt, hmeets, hbefore⟩ := h
    refine ⟨⟨_, List.getElem?_eq_getElem hlt, hmeets⟩, fun i hi position hposition => ?_⟩
    obtain ⟨_, rfl⟩ := List.getElem?_eq_some_iff.mp hposition
    exact hbefore i hi
  · intro h
    obtain ⟨⟨position, hposition, hmeets⟩, hbefore⟩ := h
    obtain ⟨hlt, rfl⟩ := List.getElem?_eq_some_iff.mp hposition
    exact ⟨hlt, hmeets, fun i hi => hbefore i hi _ (List.getElem?_eq_getElem (by omega))⟩

theorem findIdx?_eq_none_iff_meets :
    positions.findIdx? (fun position => position.any targets.contains) = none ↔
      ∀ position ∈ positions, ¬Meets targets position := by
  rw [List.findIdx?_eq_none_iff]
  simp only [← any_contains_iff, Bool.not_eq_true]

theorem FirstMeets.lt_length (h : FirstMeets positions targets index) : index < positions.length :=
  (List.findIdx?_eq_some_iff_getElem.mp (findIdx?_eq_some_iff_firstMeets.mpr h)).1

theorem FirstMeets.unique {index' : Nat} (h : FirstMeets positions targets index)
    (h' : FirstMeets positions targets index') : index = index' := by
  rw [← findIdx?_eq_some_iff_firstMeets] at h h'
  exact Option.some.inj (h.symm.trans h')

theorem firstMeets_or (positions : List (List Glyph)) (targets : List Glyph) :
    (∀ position ∈ positions, ¬Meets targets position) ∨
      ∃ index, FirstMeets positions targets index := by
  cases h : positions.findIdx? (fun position => position.any targets.contains) with
  | none => exact Or.inl (findIdx?_eq_none_iff_meets.mp h)
  | some index => exact Or.inr ⟨index, findIdx?_eq_some_iff_firstMeets.mp h⟩

theorem FirstMeets.not_forall (h : FirstMeets positions targets index) :
    ¬∀ position ∈ positions, ¬Meets targets position := by
  obtain ⟨⟨position, hposition, hmeets⟩, _⟩ := h
  exact fun hnone => hnone position (List.mem_of_getElem? hposition) hmeets

end Target

namespace ContextualRule

variable {line n index : Nat} {positions : List (List Glyph)} {target : Element}
  {targets replacements : List Glyph} {s : Session}

/-- At an end of the pattern nothing is asked of the arena. -/
theorem exec_splitAtTarget_end (hfirst : FirstMeets positions targets index)
    (hend : index = 0 ∨ index + 1 = positions.length) :
    exec (splitAtTarget line positions target targets replacements) s =
      (.ok ((targets.zip replacements).zipIdx.map fun x =>
        GlyphRule.single (endContext index (column positions x.2)) x.1.1 x.1.2 line), s) := by
  have hrules : ∀ x : (Glyph × Glyph) × Nat, splitRules line index positions x.1.1 x.1.2 x.2 =
      pure [GlyphRule.single (endContext index (column positions x.2)) x.1.1 x.1.2 line] := by
    intro x
    unfold splitRules endContext
    by_cases h0 : index = 0
    · rw [if_pos h0, if_pos h0]
    · rw [if_neg h0, if_neg h0, if_pos (by omega)]
  rw [splitAtTarget_eq, findIdx?_eq_some_iff_firstMeets.mpr hfirst]
  simp only [hrules, List.mapM_pure, pure_bind, exec_pure]
  rw [← List.flatMap_def, ← List.map_eq_flatMap]

theorem splitsAtEnd_map (hpositions : ∀ position ∈ positions, position.length = n)
    (htargets : targets.length = n) (hreplacements : replacements.length = n) :
    SplitsAtEnd line n positions targets replacements index
      ((targets.zip replacements).zipIdx.map fun x =>
        GlyphRule.single (endContext index (column positions x.2)) x.1.1 x.1.2 line) where
  length_eq := by
    rw [List.length_map, List.length_zipIdx, List.length_zip, htargets, hreplacements, Nat.min_self]
  rule_eq k hk := by
    have ht : targets[k]? = some targets[k] := List.getElem?_eq_getElem (by omega)
    have hr : replacements[k]? = some replacements[k] := List.getElem?_eq_getElem (by omega)
    refine ⟨_, _, _, isColumn_of_length hpositions hk, ht, hr, ?_⟩
    rw [List.getElem?_map, getElem?_zip_zipIdx ht hr, Option.map_some]

theorem map_apartKey_zipIdx (hlength : (targets.zip replacements).length = n) :
    ((targets.zip replacements).zipIdx.map fun x => apartKey line x.2) =
      (List.range n).map (apartKey line) := by
  have hsnd : (targets.zip replacements).zipIdx.map Prod.snd = List.range n := by
    rw [List.zipIdx_map_snd, hlength, List.range_eq_range']
  rw [← hsnd, List.map_map]
  rfl

theorem nodup_map_apartKey : ((List.range n).map (apartKey line)).Nodup := by
  refine List.pairwise_map.mpr (List.nodup_range.imp fun hne h => hne ?_)
  exact congrArg TempKey.index h

/-- The three rules of each target, with its code. -/
def apartPerTarget (line index : Nat) (positions : List (List Glyph))
    (targets replacements : List Glyph) (codes : List Nat) : List (List GlyphRule) :=
  List.zipWith (fun x => apartRules line index (column positions x.2) x.1.1 x.1.2)
    (targets.zip replacements).zipIdx (codes.map toString)

section PerTarget

variable {codes : List Nat}

theorem getElem?_apartPerTarget {k code : Nat} {t r : Glyph} (ht : targets[k]? = some t)
    (hr : replacements[k]? = some r) (hcode : codes[k]? = some code) :
    (apartPerTarget line index positions targets replacements codes)[k]? =
      some (apartRules line index (column positions k) t r (toString code)) := by
  have hname : (codes.map toString)[k]? = some (toString code) := by
    rw [List.getElem?_map, hcode, Option.map_some]
  exact List.getElem?_zipWith_eq_some.mpr ⟨_, _, getElem?_zip_zipIdx ht hr, hname, rfl⟩

theorem length_apartPerTarget (htargets : targets.length = n)
    (hreplacements : replacements.length = n) (hcodes : codes.length = n) :
    (apartPerTarget line index positions targets replacements codes).length = n := by
  simp [apartPerTarget, htargets, hreplacements, hcodes]

theorem length_of_mem_apartPerTarget :
    ∀ rules ∈ apartPerTarget line index positions targets replacements codes,
      rules.length = 3 := by
  intro rules hrules
  obtain ⟨k, hk⟩ := List.mem_iff_getElem?.mp hrules
  obtain ⟨_, _, _, _, rfl⟩ := List.getElem?_zipWith_eq_some.mp hk
  rfl

end PerTarget

theorem splitsInside_apartPerTarget {a b : Arena}
    (hpositions : ∀ position ∈ positions, position.length = n) (htargets : targets.length = n)
    (hreplacements : replacements.length = n) (hbase : b.base = a.base)
    (hkeys : b.keys = a.keys ++ (List.range n).map (apartKey line)) :
    SplitsInside line n positions targets replacements index
      (apartPerTarget line index positions targets replacements
        (List.range' a.nextCode n)).flatten a b (List.range' a.nextCode n) where
  length_eq := by
    rw [length_flatten_uniform length_of_mem_apartPerTarget,
      length_apartPerTarget htargets hreplacements List.length_range', Nat.mul_comm]
  codes_length := List.length_range'
  codes_nodup := List.nodup_range'
  codes_new code hcode key hkey := by
    have hlt := Arena.code?_lt_nextCode hkey
    have hle := (List.mem_range'_1.mp hcode).1
    omega
  keys_eq := hkeys
  code_eq k code hcode := by
    obtain ⟨hk, rfl⟩ := List.getElem?_eq_some_iff.mp hcode
    rw [List.length_range'] at hk
    have hkey : ((List.range n).map (apartKey line))[k]? = some (apartKey line k) := by
      rw [List.getElem?_map, List.getElem?_range hk, Option.map_some]
    rw [Arena.code?_of_keys_eq hbase hkeys hkey, List.getElem_range', Nat.one_mul]
  rules_eq k hk := by
    have ht : targets[k]? = some targets[k] := List.getElem?_eq_getElem (by omega)
    have hr : replacements[k]? = some replacements[k] := List.getElem?_eq_getElem (by omega)
    have hcode : (List.range' a.nextCode n)[k]? = some (a.nextCode + k) := by
      rw [List.getElem?_range' hk, Nat.one_mul]
    refine ⟨_, _, _, _, isColumn_of_length hpositions hk, ht, hr, hcode, ?_⟩
    rw [Nat.mul_comm]
    exact take_drop_flatten_uniform length_of_mem_apartPerTarget
      (getElem?_apartPerTarget ht hr hcode)

/-- Inside the pattern every target takes a new temporary glyph, if there are as many left. -/
theorem exec_splitAtTarget_inside (hfirst : FirstMeets positions targets index)
    (hpos : 0 < index) (hlast : index + 1 < positions.length)
    (hpositions : ∀ position ∈ positions, position.length = n) (htargets : targets.length = n)
    (hreplacements : replacements.length = n) (hnew : ∀ k, apartKey line k ∉ s.arena.keys) :
    (n ≤ s.arena.codesLeft ∧ ∃ rules s',
      exec (splitAtTarget line positions target targets replacements) s = (.ok rules, s') ∧
      SplitsInside line n positions targets replacements index rules s.arena s'.arena
        (List.range' s.arena.nextCode n)) ∨
    (s.arena.codesLeft < n ∧ ∃ e s',
      exec (splitAtTarget line positions target targets replacements) s = (.error e, s')) := by
  have hrules : ∀ x : (Glyph × Glyph) × Nat, splitRules line index positions x.1.1 x.1.2 x.2 = do
      return apartRules line index (column positions x.2) x.1.1 x.1.2
        (← temporary (apartKey line x.2)) := by
    intro x
    unfold splitRules
    rw [if_neg (by omega), if_neg (by omega)]
    rfl
  have hlength : (targets.zip replacements).length = n := by
    rw [List.length_zip, htargets, hreplacements, Nat.min_self]
  have hkeys := @map_apartKey_zipIdx line n targets replacements hlength
  rw [splitAtTarget_eq, findIdx?_eq_some_iff_firstMeets.mpr hfirst]
  simp only [hrules]
  have hle := s.arena.codes_le
  rcases exec_mapM_temporary (fun x : (Glyph × Glyph) × Nat => apartKey line x.2)
    (fun x => apartRules line index (column positions x.2) x.1.1 x.1.2)
    (fun x _ => hnew x.2) (hkeys ▸ nodup_map_apartKey) with
    ⟨hleft, s', hs', hbase, harena⟩ | ⟨hfew, e, s', hs'⟩
  · rw [List.length_zipIdx, hlength] at hleft hs'
    rw [hkeys] at harena
    exact Or.inl ⟨by unfold Arena.codesLeft; omega, _, s', exec_bind_of_ok hs' _,
      splitsInside_apartPerTarget hpositions htargets hreplacements hbase harena⟩
  · rw [List.length_zipIdx, hlength] at hfew
    exact Or.inr ⟨by unfold Arena.codesLeft; omega, e, s', exec_bind_of_error hs' _⟩

theorem exec_splitAtTarget_cases (target : Element)
    (hpositions : ∀ position ∈ positions, position.length = n)
    (htargets : targets.length = n) (hreplacements : replacements.length = n)
    (hnew : ∀ k, apartKey line k ∉ s.arena.keys) :
    (Unsplittable s.arena positions targets ∧ ∃ e s',
      exec (splitAtTarget line positions target targets replacements) s = (.error e, s')) ∨
    (¬Unsplittable s.arena positions targets ∧ ∃ rules s',
      exec (splitAtTarget line positions target targets replacements) s = (.ok rules, s') ∧
      Splits line n positions targets replacements rules s.arena s'.arena) := by
  rcases firstMeets_or positions targets with hnone | ⟨index, hfirst⟩
  · refine Or.inl ⟨Or.inl hnone, ?_⟩
    rw [splitAtTarget_eq, findIdx?_eq_none_iff_meets.mpr hnone]
    exact ⟨_, _, rfl⟩
  have hlt := hfirst.lt_length
  have hinside : Unsplittable s.arena positions targets ↔
      0 < index ∧ index + 1 < positions.length ∧ s.arena.codesLeft < n := by
    constructor
    · intro h
      rcases h with hnone | ⟨index', hfirst', hpos, hlast, hfew⟩
      · exact absurd hnone hfirst.not_forall
      · rw [hfirst.unique hfirst']
        exact ⟨hpos, hlast, htargets ▸ hfew⟩
    · intro h
      obtain ⟨hpos, hlast, hfew⟩ := h
      exact Or.inr ⟨index, hfirst, hpos, hlast, htargets ▸ hfew⟩
  rw [hinside]
  by_cases hend : index = 0 ∨ index + 1 = positions.length
  · refine Or.inr ⟨by omega, _, s, exec_splitAtTarget_end hfirst hend, index, hfirst, ?_⟩
    exact Or.inl ⟨hend, rfl, splitsAtEnd_map hpositions htargets hreplacements⟩
  · have hpos : 0 < index := by omega
    have hlast : index + 1 < positions.length := by omega
    rcases exec_splitAtTarget_inside hfirst hpos hlast hpositions htargets hreplacements hnew with
      ⟨hleft, rules, s', hexec, hsplits⟩ | ⟨hfew, herror⟩
    · refine Or.inr ⟨by omega, rules, s', hexec, index, hfirst, ?_⟩
      exact Or.inr ⟨hpos, hlast, _, hsplits⟩
    · exact Or.inl ⟨⟨hpos, hlast, hfew⟩, herror⟩

section When

variable {registry : Registry} {rule : ContextualRule} {pattern : List Element}
  {sides : List (List Glyph × List Glyph)} {rules : List GlyphRule} {s' : Session}

theorem sized_iff : Sized registry pattern rule.pairs n positions sides ↔
    whenPositions registry pattern = .ok (positions, n) ∧
      whenPairs registry rule.pairs n = .ok sides := by
  rw [whenPositions_ok_iff, whenPairs_ok_iff]
  constructor
  · intro h
    refine ⟨⟨h.two_le, h.positions_eq, h.position_length⟩, h.sides_eq.imp fun pair side hside => ?_⟩
    obtain ⟨ht, hr, hsize, hsize'⟩ := hside
    exact ⟨Pair.glyphs_ok_iff.mpr ⟨ht, hr, hsize.trans hsize'.symm⟩, hsize⟩
  · intro h
    obtain ⟨⟨htwo, hpositions, hlengths⟩, hpairs⟩ := h
    refine ⟨htwo, hpositions, hlengths, hpairs.imp fun pair side hside => ?_⟩
    obtain ⟨hglyphs, hsize⟩ := hside
    obtain ⟨ht, hr, hsame⟩ := Pair.glyphs_ok_iff.mp hglyphs
    exact ⟨ht, hr, hsize, hsame.symm.trans hsize⟩

theorem exists_sized_iff (hcontext : rule.context = .when pattern) :
    (∃ n positions sides, Sized registry pattern rule.pairs n positions sides) ↔
      2 ≤ pattern.length ∧ ∃ n, ∀ e ∈ rule.elements, registry.HasSize n e := by
  simp only [forall_elements_iff, hcontext]
  constructor
  · intro h
    obtain ⟨n, positions, sides, h⟩ := h
    refine ⟨h.two_le, n, ?_, fun pair hpair => ?_⟩
    · exact (Registry.forall_positionsOf_iff h.positions_eq).mpr h.position_length
    · obtain ⟨side, _, ht, hr, hsize, hsize'⟩ := forall₂_of_mem_left h.sides_eq pair hpair
      exact ⟨⟨_, ht, hsize⟩, ⟨_, hr, hsize'⟩⟩
  · intro h
    obtain ⟨htwo, n, hpattern, hpairs⟩ := h
    obtain ⟨positions, hpositions, hlengths⟩ :=
      Registry.exists_positionsOf_forall_iff.mpr hpattern
    have hside : ∀ pair ∈ rule.pairs, ∃ side : List Glyph × List Glyph,
        registry.glyphsOf pair.target = .ok side.1 ∧
          registry.glyphsOf pair.replacement = .ok side.2 ∧
          side.1.length = n ∧ side.2.length = n := by
      intro pair hpair
      obtain ⟨⟨targets, ht, hsize⟩, ⟨replacements, hr, hsize'⟩⟩ := hpairs pair hpair
      exact ⟨(targets, replacements), ht, hr, hsize, hsize'⟩
    obtain ⟨sides, hsides⟩ := exists_forall₂_iff.mpr hside
    exact ⟨n, positions, sides, htwo, hpositions, hlengths, hsides⟩

theorem exec_whenRules_ok_sized (h : exec (rule.whenRules registry pattern) s = (.ok rules, s')) :
    ∃ n positions sides, Sized registry pattern rule.pairs n positions sides := by
  obtain ⟨⟨positions, n⟩, m, hpositions, h⟩ := exec_bind_ok h
  obtain ⟨sides, m', hsides, _⟩ := exec_bind_ok h
  exact ⟨n, positions, sides,
    sized_iff.mpr ⟨(exec_atLine_inv hpositions).1, (exec_atLine_inv hsides).1⟩⟩

theorem keepsPattern_map (h : Sized registry pattern rule.pairs n positions sides) :
    KeepsPattern rule.line n positions sides
      ((List.range n).map fun k => wholeRule rule.line k positions sides) where
  length_eq := by rw [List.length_map, List.length_range]
  rule_eq k hk := by
    have hsides : ∀ side ∈ sides, side.1.length = n ∧ side.2.length = n := by
      intro side hside
      obtain ⟨_, _, _, _, hsize⟩ := forall₂_of_mem_right h.sides_eq side hside
      exact hsize
    have hfst := isColumn_of_length
      (List.forall_mem_map.mpr fun side hside => (hsides side hside).1) hk
    have hsnd := isColumn_of_length
      (List.forall_mem_map.mpr fun side hside => (hsides side hside).2) hk
    have hlength : (column (sides.map Prod.fst) k).length =
        (column (sides.map Prod.snd) k).length := by
      rw [← hfst.length_eq, ← hsnd.length_eq, List.length_map, List.length_map]
    refine ⟨_, (column (sides.map Prod.fst) k).zip (column (sides.map Prod.snd) k),
      isColumn_of_length h.position_length hk, ?_, ?_, ?_⟩
    · rwa [List.map_fst_zip (Nat.le_of_eq hlength)]
    · rwa [List.map_snd_zip (Nat.le_of_eq hlength.symm)]
    · rw [List.getElem?_map, List.getElem?_range hk]
      rfl

theorem exec_whenRules_several (h : Sized registry pattern rule.pairs n positions sides)
    (hmany : rule.pairs.length ≠ 1) :
    exec (rule.whenRules registry pattern) s =
      (.ok ((List.range n).map fun k => wholeRule rule.line k positions sides), s) := by
  obtain ⟨hpositions, hsides⟩ := sized_iff.mp h
  unfold whenRules
  rw [hpositions, exec_bind_of_ok (exec_atLine_ok _ _ s)]
  dsimp only
  rw [hsides, exec_bind_of_ok (exec_atLine_ok _ _ s)]
  split
  next pair _ _ hp => simp [hp] at hmany
  next => rfl

theorem exec_whenRules_single {pair : Pair} (hpair : rule.pairs = [pair])
    (h : Sized registry pattern rule.pairs n positions [(targets, replacements)]) :
    exec (rule.whenRules registry pattern) s =
      exec (splitAtTarget rule.line positions pair.target targets replacements) s := by
  obtain ⟨hpositions, hsides⟩ := sized_iff.mp h
  unfold whenRules
  rw [hpositions, exec_bind_of_ok (exec_atLine_ok _ _ s)]
  dsimp only
  rw [hsides, exec_bind_of_ok (exec_atLine_ok _ _ s), hpair]

/-- With as many glyphs for each element, only a target that is not in the pattern, or is inside it
with too few codes left, keeps a rule from being expanded. -/
theorem exec_whenRules_cases (h : Sized registry pattern rule.pairs n positions sides)
    (hnew : ∀ k, apartKey rule.line k ∉ s.arena.keys) :
    ((∃ targets replacements, sides = [(targets, replacements)] ∧
        Unsplittable s.arena positions targets) ∧
      ∃ e s', exec (rule.whenRules registry pattern) s = (.error e, s')) ∨
    ((¬∃ targets replacements, sides = [(targets, replacements)] ∧
        Unsplittable s.arena positions targets) ∧
      ∃ rules s', exec (rule.whenRules registry pattern) s = (.ok rules, s') ∧
        ExpandsWhen rule.line n positions sides rules s.arena s'.arena) := by
  have hlength : rule.pairs.length = sides.length := h.sides_eq.length_eq
  by_cases hone : sides.length = 1
  · obtain ⟨pair, hpair⟩ := List.length_eq_one_iff.mp (hlength.trans hone)
    obtain ⟨side, rfl⟩ := List.length_eq_one_iff.mp hone
    obtain ⟨_, _, _, _, htargets, hreplacements⟩ :=
      forall₂_of_mem_right h.sides_eq side List.mem_cons_self
    have hsplit : ∀ P : List Glyph → Prop,
        (∃ targets replacements, [side] = [(targets, replacements)] ∧ P targets) ↔ P side.1 := by
      intro P
      constructor
      · intro hex
        obtain ⟨targets, replacements, he, hP⟩ := hex
        rwa [(List.cons.inj he).1]
      · intro hP
        exact ⟨side.1, side.2, rfl, hP⟩
    rw [hsplit, exec_whenRules_single hpair h]
    rcases exec_splitAtTarget_cases pair.target h.position_length htargets hreplacements hnew with
      herror | ⟨hno, rules, s', hexec, hsplits⟩
    · exact Or.inl herror
    · exact Or.inr ⟨hno, rules, s', hexec, Or.inr ⟨side.1, side.2, rfl, hsplits⟩⟩
  · have hmany : rule.pairs.length ≠ 1 := fun he => hone (hlength.symm.trans he)
    refine Or.inr ⟨?_, _, s, exec_whenRules_several h hmany, Or.inl ⟨hone, rfl, keepsPattern_map h⟩⟩
    intro hex
    obtain ⟨_, _, rfl, _⟩ := hex
    exact hone rfl

theorem unsplittable_iff {a : Arena} (h : Sized registry pattern rule.pairs n positions sides) :
    (∃ pair positions targets, rule.pairs = [pair] ∧ registry.positionsOf pattern = .ok positions ∧
      registry.glyphsOf pair.target = .ok targets ∧ Unsplittable a positions targets) ↔
    ∃ targets replacements, sides = [(targets, replacements)] ∧
      Unsplittable a positions targets := by
  have hsides := h.sides_eq
  constructor
  · intro hex
    obtain ⟨pair, positions', targets, hpair, hpositions, htargets, hno⟩ := hex
    rw [hpair] at hsides
    obtain ⟨side, rest, ⟨ht, _⟩, hrest, rfl⟩ := List.forall₂_cons_left_iff.mp hsides
    rw [List.forall₂_nil_left_iff.mp hrest]
    rw [← Except.ok.inj (h.positions_eq.symm.trans hpositions),
      ← Except.ok.inj (ht.symm.trans htargets)] at hno
    exact ⟨side.1, side.2, rfl, hno⟩
  · intro hex
    obtain ⟨targets, replacements, rfl, hno⟩ := hex
    obtain ⟨pair, rest, ⟨ht, _⟩, hrest, hpairs⟩ := List.forall₂_cons_right_iff.mp hsides
    rw [List.forall₂_nil_right_iff.mp hrest] at hpairs
    exact ⟨pair, positions, targets, hpairs, h.positions_eq, ht, hno⟩

end When

end ContextualRule

/-- A `when` rule has no glyph rules exactly if its pattern is too short, a class is not defined, its
elements do not all stand for equally many glyphs, or it has one substitution whose target is not in
the pattern or inside it with too few codes left for its glyphs. Otherwise it keeps its pattern with
several substitutions and is split at the target with one. -/
theorem glyphRules_when_complete {registry : Registry} {rule : ContextualRule}
    {pattern : List Element} {s : Session} (hcontext : rule.context = .when pattern)
    (hne : rule.pairs ≠ [])
    (hnew : ∀ key ∈ s.arena.keys, key.purpose = .decomposed → key.line ≠ rule.line) :
    ((∃ e, (exec (rule.glyphRules registry) s).1 = .error e) ↔
      pattern.length < 2 ∨ (∃ e ∈ rule.elements, registry.Lacks e) ∨
        (¬∃ n, ∀ e ∈ rule.elements, registry.HasSize n e) ∨
        ∃ pair positions targets, rule.pairs = [pair] ∧
          registry.positionsOf pattern = .ok positions ∧
          registry.glyphsOf pair.target = .ok targets ∧
          Unsplittable s.arena positions targets) ∧
    ∀ rules, (exec (rule.glyphRules registry) s).1 = .ok rules →
      ∃ n positions sides, Sized registry pattern rule.pairs n positions sides ∧
        ExpandsWhen rule.line n positions sides rules s.arena
          (exec (rule.glyphRules registry) s).2.arena := by
  have hkeys : ∀ k, apartKey rule.line k ∉ s.arena.keys := fun k hk => hnew _ hk rfl rfl
  have hunreported : rule.unreported registry = rule.whenRules registry pattern := by
    unfold ContextualRule.unreported
    rw [hcontext]
  obtain ⟨events, hexec⟩ := @ContextualRule.exec_glyphRules registry rule hne s
  rw [hexec, hunreported]
  dsimp only
  by_cases hsized : ∃ n positions sides, Sized registry pattern rule.pairs n positions sides
  · -- the sizes are right, so what is left is whether the rule can be split
    obtain ⟨htwo, n, hsame⟩ := (ContextualRule.exists_sized_iff hcontext).mp hsized
    obtain ⟨n, positions, sides, hsized⟩ := hsized
    rw [ContextualRule.unsplittable_iff hsized]
    have hlong : ¬pattern.length < 2 := by omega
    have hdefined : ¬∃ e ∈ rule.elements, registry.Lacks e := by
      intro h
      obtain ⟨e, he, hlacks⟩ := h
      exact Registry.not_lacks_of_hasSize (hsame e he) hlacks
    have hcommon : ∃ n, ∀ e ∈ rule.elements, registry.HasSize n e := ⟨_, hsame⟩
    simp only [hlong, hdefined, hcommon, not_true_eq_false, false_or]
    rcases ContextualRule.exec_whenRules_cases hsized hkeys with
      ⟨hno, e, s', herror⟩ | ⟨hyes, rules, s', hok, hform⟩
    · rw [herror]
      refine ⟨⟨fun _ => hno, fun _ => ⟨e, rfl⟩⟩, ?_⟩
      intro rules h
      cases h
    · rw [hok]
      refine ⟨⟨?_, fun h => absurd h hyes⟩, ?_⟩
      · intro h
        obtain ⟨_, h⟩ := h
        cases h
      · intro rules' h
        rw [← Except.ok.inj h]
        exact ⟨n, positions, sides, hsized, hform⟩
  · have hfails : ¬∃ rules, (exec (rule.whenRules registry pattern) s).1 = .ok rules := by
      intro h
      obtain ⟨rules, h⟩ := h
      exact hsized (ContextualRule.exec_whenRules_ok_sized (Prod.ext h rfl))
    refine ⟨⟨fun _ => ?_, fun _ => except_error_iff.mpr hfails⟩, fun rules h => ?_⟩
    · rw [ContextualRule.exists_sized_iff hcontext, not_and_or, Nat.not_le] at hsized
      rcases hsized with hshort | hsizes
      · exact Or.inl hshort
      · exact Or.inr (Or.inr (Or.inl hsizes))
    · exact absurd ⟨rules, h⟩ hfails

/-- The marks stand between letters, two of each. -/
def framedMarks : ContextualRule where
  context := .when [.classRef "letters", .classRef "marks", .classRef "letters"]
  pairs := [⟨.classRef "marks", .classRef "letters", none⟩]
  line := 4

theorem glyphRules_when_complete_inside :
    framedMarks.pairs ≠ [] ∧
    (∀ key ∈ (Session.fresh defaultTempBase).arena.keys,
      key.purpose = .decomposed → key.line ≠ framedMarks.line) ∧
    ∃ rules positions targets replacements codes,
      (exec (framedMarks.glyphRules lettersAndMarks) (Session.fresh defaultTempBase)).1 =
        .ok rules ∧
      SplitsInside 4 2 positions targets replacements 1 rules
        (Session.fresh defaultTempBase).arena
        (exec (framedMarks.glyphRules lettersAndMarks)
          (Session.fresh defaultTempBase)).2.arena codes := by
  have hne : framedMarks.pairs ≠ [] := by decide
  have hnew : ∀ key ∈ (Session.fresh defaultTempBase).arena.keys,
      key.purpose = .decomposed → key.line ≠ framedMarks.line := by
    intro key hkey
    cases hkey
  have hmade : ∃ rules, (exec (framedMarks.glyphRules lettersAndMarks)
      (Session.fresh defaultTempBase)).1 = .ok rules := ⟨_, rfl⟩
  obtain ⟨rules, hrules⟩ := hmade
  obtain ⟨n, positions, sides, hsized, hform⟩ :=
    (@glyphRules_when_complete lettersAndMarks _ _ _ rfl hne hnew).2 rules hrules
  have hpositions : positions = [["a", "e"], ["m", "n"], ["a", "e"]] :=
    (Except.ok.inj hsized.positions_eq).symm
  have hn : n = 2 := (hsized.position_length ["a", "e"] (by rw [hpositions]; simp)).symm
  rcases hform with ⟨hmany, _⟩ | ⟨targets, replacements, hsides, index, hfirst, hplace⟩
  · exact absurd hsized.sides_eq.length_eq.symm hmany
  have hside := hsized.sides_eq
  rw [hsides] at hside
  cases hside with
  | cons hpair _ =>
    have htargets : targets = ["m", "n"] := (Except.ok.inj hpair.1).symm
    have hindex : index = 1 := by
      refine hfirst.unique (findIdx?_eq_some_iff_firstMeets.mp ?_)
      rw [hpositions, htargets]
      decide
    rcases hplace with ⟨hend, _⟩ | ⟨_, _, codes, hinside⟩
    · rw [hpositions, hindex] at hend
      cases hend <;> contradiction
    · rw [hn, hindex] at hinside
      exact ⟨hne, hnew, rules, positions, targets, replacements, codes, hrules, hinside⟩

end Metamorphosis
