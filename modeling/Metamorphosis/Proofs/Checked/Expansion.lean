import Metamorphosis.Proofs.Checked.Access
import Metamorphosis.Proofs.GlyphRule.Whole

namespace Metamorphosis

namespace Checked

open CheckedM (of atLine inTable)

def column (positions : List (List Glyph)) (k : Nat) : Option (List Glyph) :=
  positions.mapM fun position => position[k]?

/-- The size that all have in common, or the indices of the first and of one that differs from it. -/
def lockstep : List Nat → Except (Nat × Nat) Nat
  | [] => .ok 0
  | first :: rest =>
    match rest.findIdx? fun size => size != first with
    | some i => .error (0, i + 1)
    | none => .ok first

def commonSize (elements : List Element) (positions : List (List Glyph)) :
    Option (Except SizeMismatch Nat) :=
  match lockstep (positions.map List.length) with
  | .ok size => some (.ok size)
  | .error (a, b) => do
    let first ← positions[a]?
    let other ← positions[b]?
    return .error ⟨← elements[a]?, ← elements[b]?, first.length, other.length⟩

def whenPositions (registry : Registry) (pattern : List Element) :
    ExceptT RuleFault Option (List (List Glyph) × Nat) := do
  if pattern.length < 2 then throw .shortWhen
  let positions ← registry.positionsOf pattern
  match ← commonSize pattern positions with
  | .ok size => return (positions, size)
  | .error m => throw (.whenSizes m.first m.other m.firstSize m.otherSize)

/-- After a new code is handed out, the next one is counted up in 32 bits. -/
def request (a : Arena) (key : TempKey) : ExceptT TableFault Option (Nat × Arena) := do
  let (code, after) ← a.request key
  if (a.code? key).isNone then
    let _ ← sum 32 code 1
  return (code, after)

def temporary (key : TempKey) : CheckedM Glyph := do
  let arena := (← get).arena
  let (code, after) ← inTable (request arena key)
  if (arena.code? key).isNone then CompileM.report (.temporary code key)
  modify fun s => { s with arena := after }
  return toString code

def takeApart (line k index : Nat) (pattern : List Glyph) (target replacement : Glyph) :
    CheckedM (List GlyphRule) := do
  let temp ← temporary ⟨.decomposed, line, k, 0⟩
  let group := some (ContextualRule.groupName line)
  let before ← sliceTo index pattern
  let after ← sliceFrom (index + 1) pattern
  return [
    { site := .context (.after before), pairs := [(target, temp)], line, group },
    { site := .context (.before after), pairs := [(temp, replacement)], line, group },
    { site := .cleanup temp, pairs := [(temp, target)], line, group }]

/-- The rules of the `k`-th target of a pattern that is split at an index. -/
def splitRules (line index last : Nat) (positions : List (List Glyph)) (t r : Glyph) (k : Nat) :
    CheckedM (List GlyphRule) := do
  let pattern ← column positions k
  if index = 0 then
    return [GlyphRule.single (.before (← sliceFrom 1 pattern)) t r line]
  else if index = last then
    return [GlyphRule.single (.after (← sliceTo last pattern)) t r line]
  else takeApart line k index pattern t r

def splitAtTarget (rule : ContextualRule) (positions : List (List Glyph))
    (targets replacements : List Glyph) : CheckedM (List GlyphRule) :=
  match positions.findIdx? fun position => position.any targets.contains with
  | none => do
    throw (.invalidRule (some rule.line) (.targetOutsidePattern (← rule.pairs[0]?).target))
  | some index => do
    let last ← Nat.psub positions.length 1
    let perTarget ← (targets.zip replacements).zipIdx.mapM fun ((t, r), k) =>
      splitRules rule.line index last positions t r k
    return perTarget.flatten

/-- The `k`-th target of a substitution with its replacement. -/
def pairAt (k : Nat) (side : List Glyph × List Glyph) : Option (Glyph × Glyph) := do
  return (← side.1[k]?, ← side.2[k]?)

def wholeRule (line k : Nat) (positions : List (List Glyph))
    (sides : List (List Glyph × List Glyph)) : Option GlyphRule := do
  let pattern ← column positions k
  let pairs ← sides.mapM (pairAt k)
  return { site := .context (.when pattern), pairs, line }

/-- The rules for all glyphs of a `when` pattern. -/
def wholeRules (line size : Nat) (positions : List (List Glyph))
    (sides : List (List Glyph × List Glyph)) : Option (List GlyphRule) :=
  (List.range size).mapM fun k => wholeRule line k positions sides

def whenRules (registry : Registry) (rule : ContextualRule) (pattern : List Element) :
    CheckedM (List GlyphRule) := do
  let (positions, size) ← atLine rule.line (whenPositions registry pattern)
  let sides ← CompileM.atLine rule.line (ContextualRule.whenPairs registry rule.pairs size)
  match sides with
  | [(targets, replacements)] => splitAtTarget rule positions targets replacements
  | _ => wholeRules rule.line size positions sides

def glyphRules (registry : Registry) (rule : ContextualRule) : CheckedM (List GlyphRule) := do
  if rule.pairs.isEmpty then throw (.invalidRule (some rule.line) .noSubstitutions)
  let rules ← match rule.context with
    | .after pattern => CompileM.atLine rule.line (rule.adjacentRules registry .after pattern)
    | .before pattern => CompileM.atLine rule.line (rule.adjacentRules registry .before pattern)
    | .between first second => CompileM.atLine rule.line (rule.betweenRules registry first second)
    | .when pattern => whenRules registry rule pattern
  CompileM.reportAll (rules.map .glyphRule)
  return rules

def allGlyphRules (registry : Registry) (rules : List ContextualRule) :
    CheckedM (List GlyphRule) := do
  let perRule ← rules.mapM (glyphRules registry)
  let all := perRule.flatten
  CompileM.report (.contextualExpanded rules.length all.length (← get).arena.size)
  return all

theorem column_eq {positions : List (List Glyph)} {k : Nat}
    (h : ∀ position ∈ positions, k < position.length) :
    column positions k = some (Metamorphosis.column positions k) :=
  mapM_eq_filterMap fun position hp => by simp [h position hp]

theorem commonSize_eq {elements : List Element} {positions : List (List Glyph)}
    (h : elements.length = positions.length) :
    commonSize elements positions = some (Metamorphosis.commonSize (elements.zip positions)) := by
  cases positions with
  | nil =>
    rw [List.zip_nil_right]
    rfl
  | cons p ps =>
    obtain ⟨e, es, rfl⟩ := List.exists_cons_of_length_eq_add_one h
    have hlength : es.length = ps.length := by simpa using h
    rw [List.zip_cons_cons, commonSize, Metamorphosis.commonSize, List.map_cons, lockstep,
      List.findIdx?_map]
    cases hi : ps.findIdx? ((fun size => size != p.length) ∘ List.length) with
    | none =>
      have hfind : (es.zip ps).find? (fun entry => entry.2.length != p.length) = none := by
        rw [List.find?_eq_none]
        intro entry hentry
        have hn := List.findIdx?_eq_none_iff.mp hi entry.2 (List.of_mem_zip hentry).2
        simpa using hn
      rw [hfind]
    | some i =>
      obtain ⟨hlt, hne, hbefore⟩ := List.findIdx?_eq_some_iff_getElem.mp hi
      have hlt' : i < es.length := by omega
      have hfind : (es.zip ps).find? (fun entry => entry.2.length != p.length) =
          some (es[i], ps[i]) := by
        rw [List.find?_eq_some_iff_getElem]
        refine ⟨hne, i, by rw [List.length_zip]; omega, by simp, ?_⟩
        intro j hj
        simpa using hbefore j hj
      rw [hfind]
      simp [hlt, hlt']

theorem whenPositions_eq (registry : Registry) (pattern : List Element) :
    whenPositions registry pattern = ofExcept (ContextualRule.whenPositions registry pattern) := by
  unfold whenPositions ContextualRule.whenPositions
  dsimp only
  by_cases hshort : pattern.length < 2
  · rw [if_pos hshort, if_pos hshort]
    rfl
  · rw [if_neg hshort, if_neg hshort]
    refine ofExcept_bind fun positions hp => ?_
    have hlength : pattern.length = positions.length := (length_of_mapM_ok hp).symm
    rw [commonSize_eq hlength]
    cases Metamorphosis.commonSize (pattern.zip positions) <;> rfl

theorem request_eq (a : Arena) (key : TempKey) : request a key = ofExcept (a.request key) := by
  have hpure : a.request key = a.request key >>= pure := (bind_pure _).symm
  rw [hpure]
  refine ofExcept_bind fun result h => ?_
  obtain ⟨code, after⟩ := result
  have hcode : code ≤ Arena.maxCode := Arena.code?_le (Arena.request_ok h).1
  have hsum : sum 32 code 1 = some (code + 1) := if_pos (by simp only [Arena.maxCode] at hcode; omega)
  dsimp only
  rw [hsum]
  cases (a.code? key).isNone <;> rfl

theorem temporary_eq (key : TempKey) : temporary key = of (CompileM.temporary key) := by
  refine CheckedM.of_bind (x := get) fun _ before _ _ => ?_
  dsimp only
  rw [request_eq]
  refine CheckedM.of_bind fun _ result _ _ => ?_
  cases (before.arena.code? key).isNone <;> rfl

theorem takeApart_eq {line k index : Nat} {pattern : List Glyph} (h : index < pattern.length)
    (target replacement : Glyph) :
    takeApart line k index pattern target replacement =
      of (ContextualRule.takeApart line k index pattern target replacement) := by
  unfold takeApart
  rw [temporary_eq]
  refine CheckedM.of_bind fun _ temp _ _ => ?_
  rw [CheckedM.access_bind (sliceTo_eq (Nat.le_of_lt h)), CheckedM.access_bind (sliceFrom_eq h)]
  rfl

theorem splitRules_eq {line index k : Nat} {positions : List (List Glyph)}
    (hindex : index < positions.length) (hk : ∀ position ∈ positions, k < position.length)
    (t r : Glyph) :
    splitRules line index (positions.length - 1) positions t r k =
      of (ContextualRule.splitRules line index positions t r k) := by
  have hlength := ContextualRule.length_column hk
  unfold splitRules ContextualRule.splitRules
  rw [CheckedM.access_bind (column_eq hk)]
  by_cases hfirst : index = 0
  · rw [if_pos hfirst, if_pos hfirst, CheckedM.access_bind (sliceFrom_eq (by omega))]
    rfl
  · rw [if_neg hfirst, if_neg hfirst]
    by_cases hlast : index + 1 = positions.length
    · have hindex : index = positions.length - 1 := by omega
      rw [if_pos hindex, if_pos hlast, CheckedM.access_bind (sliceTo_eq (by omega)), ← hindex]
      rfl
    · rw [if_neg (by omega), if_neg hlast]
      exact takeApart_eq (by omega) t r

theorem splitAtTarget_eq {rule : ContextualRule} {pair : Pair} (hpairs : rule.pairs = [pair])
    {positions : List (List Glyph)} {targets replacements : List Glyph}
    (h : ∀ position ∈ positions, position.length = targets.length) :
    splitAtTarget rule positions targets replacements =
      of (ContextualRule.splitAtTarget rule.line positions pair.target targets replacements) := by
  rw [ContextualRule.splitAtTarget_eq]
  unfold splitAtTarget
  cases hindex : positions.findIdx? fun position => position.any targets.contains with
  | none =>
    have htarget : rule.pairs[0]? = some pair := by rw [hpairs]; rfl
    exact CheckedM.access_bind htarget _
  | some index =>
    have hlt : index < positions.length := (List.findIdx?_eq_some_iff_getElem.mp hindex).1
    dsimp only
    rw [CheckedM.access_bind (Nat.psub_eq_sub (by omega))]
    rw [CheckedM.mapM_of]
    · exact CheckedM.of_bind fun _ _ _ _ => rfl
    · intro x hx
      have hk : x.2 < targets.length := by
        have hlt := List.snd_lt_of_mem_zipIdx hx
        rw [List.length_zip] at hlt
        omega
      exact splitRules_eq hlt (fun position hp => (h position hp).symm ▸ hk) x.1.1 x.1.2

theorem mapM_pairAt {k : Nat} {sides : List (List Glyph × List Glyph)}
    (h : ∀ side ∈ sides, k < side.1.length ∧ k < side.2.length) :
    sides.mapM (pairAt k) =
      some ((Metamorphosis.column (sides.map Prod.fst) k).zip
        (Metamorphosis.column (sides.map Prod.snd) k)) := by
  induction sides with
  | nil => rfl
  | cons side rest ih =>
    obtain ⟨htarget, hreplacement⟩ := h side List.mem_cons_self
    rw [List.mapM_cons, ih fun other ho => h other (List.mem_cons_of_mem side ho)]
    simp [pairAt, Metamorphosis.column, htarget, hreplacement]

theorem wholeRule_eq {line k : Nat} {positions : List (List Glyph)}
    {sides : List (List Glyph × List Glyph)} (hp : ∀ position ∈ positions, k < position.length)
    (hs : ∀ side ∈ sides, k < side.1.length ∧ k < side.2.length) :
    wholeRule line k positions sides =
      some (ContextualRule.wholeRule line k positions sides) := by
  unfold wholeRule
  rw [column_eq hp, mapM_pairAt hs]
  rfl

theorem wholeRules_eq (line : Nat) {size : Nat} {positions : List (List Glyph)}
    {sides : List (List Glyph × List Glyph)} (hp : ∀ position ∈ positions, position.length = size)
    (hs : ∀ side ∈ sides, side.1.length = size ∧ side.2.length = size) :
    wholeRules line size positions sides =
      some ((List.range size).map fun k =>
        ContextualRule.wholeRule line k positions sides) := by
  refine mapM_eq_map fun k hk => ?_
  have hlt := List.mem_range.mp hk
  apply wholeRule_eq
  · intro position hposition
    rwa [hp position hposition]
  · intro side hside
    rw [(hs side hside).1, (hs side hside).2]
    exact ⟨hlt, hlt⟩

theorem whenRules_eq (registry : Registry) (rule : ContextualRule) (pattern : List Element) :
    whenRules registry rule pattern = of (rule.whenRules registry pattern) := by
  unfold whenRules ContextualRule.whenRules
  rw [whenPositions_eq]
  refine CheckedM.of_bind fun _ result _ hresult => ?_
  obtain ⟨positions, size⟩ := result
  obtain ⟨hpositions, -⟩ := CompileM.exec_atLine_inv hresult
  obtain ⟨-, hsizes⟩ := ContextualRule.whenPositions_ok hpositions
  refine CheckedM.of_bind fun _ sides _ hsides => ?_
  obtain ⟨hpairs, -⟩ := CompileM.exec_atLine_inv hsides
  obtain ⟨hlength, hsideSizes⟩ := ContextualRule.whenPairs_length hpairs
  by_cases hone : rule.pairs.length = 1
  · obtain ⟨pair, hp⟩ := List.length_eq_one_iff.mp hone
    rw [hp] at hpairs
    obtain ⟨targets, replacements, rfl, -, hsize⟩ := ContextualRule.whenPairs_single_ok hpairs
    rw [hp]
    exact splitAtTarget_eq hp fun position hposition => (hsizes position hposition).trans hsize.symm
  · have hmany : sides.length ≠ 1 := hlength ▸ hone
    have hwhole := wholeRules_eq rule.line hsizes hsideSizes
    split
    next => simp at hmany
    next =>
      split
      next => simp at hmany
      next =>
        rw [hwhole]
        rfl

theorem glyphRules_eq (registry : Registry) (rule : ContextualRule) :
    glyphRules registry rule = of (rule.glyphRules registry) := by
  unfold glyphRules ContextualRule.glyphRules
  simp only [whenRules_eq]
  cases rule.pairs.isEmpty with
  | true => rfl
  | false => cases rule.context <;> exact CheckedM.of_bind fun _ _ _ _ => rfl

theorem allGlyphRules_eq (registry : Registry) (rules : List ContextualRule) :
    allGlyphRules registry rules = of (ContextualRule.allGlyphRules registry rules) := by
  unfold allGlyphRules
  rw [CheckedM.mapM_of fun rule _ => glyphRules_eq registry rule]
  exact CheckedM.of_bind fun _ _ _ _ => rfl

end Checked

end Metamorphosis
