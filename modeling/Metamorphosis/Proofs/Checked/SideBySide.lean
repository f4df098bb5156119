import Metamorphosis.Proofs.Checked.Expansion
import Metamorphosis.Proofs.Entry
import Metamorphosis.Proofs.Window.Expansion

namespace Metamorphosis

namespace Checked

open CheckedM (of atLine)

def spreadColumn (positions : List (List Glyph)) (k : Nat) : Option (List Glyph) :=
  positions.mapM fun glyphs => if glyphs.length = 1 then glyphs[0]? else glyphs[k]?

/-- A head glyph, the only one of its column, with its parts. -/
def spreadEntry (head : List Glyph) (parts : List (List Glyph)) (k : Nat) :
    Option (Glyph × List Glyph) := do
  let heads ← spreadColumn [head] k
  return (← heads.head?, ← spreadColumn parts k)

def spreadEntries (head : List Glyph) (parts : List (List Glyph)) (size : Nat) :
    Option (List (Glyph × List Glyph)) :=
  (List.range size).mapM (spreadEntry head parts)

def sideBySide (registry : Registry) (head : Element) (parts : List Element)
    (fault : Nat → Nat → RuleFault) : ExceptT RuleFault Option (List (Glyph × List Glyph)) := do
  let heads ← registry.glyphsOf head
  let positions ← registry.positionsOf parts
  match spreadSize ((heads :: positions).map List.length) with
  | .ok size => spreadEntries heads positions size
  | .error (a, b) => throw (fault a b)

def ligatureEntries (registry : Registry) (rule : LigatureRule) :
    ExceptT RuleFault Option (List (Glyph × List Glyph)) := do
  if rule.components.length < 2 then throw (.fewComponents rule.ligature)
  sideBySide registry rule.ligature rule.components .ligatureSizes

def oneToManyEntries (registry : Registry) (rule : OneToManyRule) :
    ExceptT RuleFault Option (List (Glyph × List Glyph)) := do
  if rule.targets.isEmpty then throw (.noTargets rule.source)
  sideBySide registry rule.source rule.targets .oneToManySizes

/-- The only glyph of a list is its first. -/
theorem spread?_eq (glyphs : List Glyph) (k : Nat) :
    (if glyphs.length = 1 then glyphs[0]? else glyphs[k]?) = spread? glyphs k := by
  cases glyphs with
  | nil => rfl
  | cons g rest =>
    cases rest with
    | nil => rfl
    | cons g' rest => simp [spread?]

theorem spreadColumn_eq {positions : List (List Glyph)} {size k : Nat}
    (h : ∀ glyphs ∈ positions, glyphs.length = 1 ∨ glyphs.length = size) (hk : k < size) :
    spreadColumn positions k = some (positions.filterMap (spread? · k)) := by
  unfold spreadColumn
  simp only [spread?_eq]
  exact mapM_eq_filterMap fun glyphs hg => isSome_spread? (h glyphs hg) hk

theorem spreadEntries_eq {head : List Glyph} {parts : List (List Glyph)} {size : Nat}
    (h : ∀ glyphs ∈ head :: parts, glyphs.length = 1 ∨ glyphs.length = size) :
    spreadEntries head parts size = some (Metamorphosis.spreadEntries head parts size) := by
  have hentry : ∀ k ∈ List.range size,
      spreadEntry head parts k =
        ((spread? head k).map fun g => (g, parts.filterMap (spread? · k))) ∧
      (spreadEntry head parts k).isSome = true := by
    intro k hk
    have hlt := List.mem_range.mp hk
    have hhead := h head List.mem_cons_self
    obtain ⟨g, hg⟩ := Option.isSome_iff_exists.mp (isSome_spread? hhead hlt)
    have hcolumn : spreadColumn [head] k = some [g] := by
      rw [spreadColumn_eq (by simpa using hhead) hlt]
      simp [hg]
    have hparts := spreadColumn_eq (fun glyphs hp => h glyphs (List.mem_cons_of_mem _ hp)) hlt
    simp [spreadEntry, hcolumn, hparts, hg]
  unfold spreadEntries Metamorphosis.spreadEntries
  rw [mapM_eq_filterMap fun k hk => (hentry k hk).2,
    List.filterMap_congr fun k hk => (hentry k hk).1]

theorem sideBySide_eq (registry : Registry) (head : Element) (parts : List Element)
    (fault : Nat → Nat → RuleFault) :
    sideBySide registry head parts fault =
      ofExcept (Metamorphosis.sideBySide registry head parts fault) := by
  refine ofExcept_bind fun heads _ => ?_
  refine ofExcept_bind fun positions _ => ?_
  cases hsize : spreadSize ((heads :: positions).map List.length) with
  | error sizes => rfl
  | ok size =>
    have hall : ∀ glyphs ∈ heads :: positions, glyphs.length = 1 ∨ glyphs.length = size :=
      List.forall_mem_map.mp (spreadSize_ok_iff.mp hsize).1
    dsimp only
    rw [spreadEntries_eq hall]
    rfl

theorem ligatureEntries_eq (registry : Registry) (rule : LigatureRule) :
    ligatureEntries registry rule = ofExcept (rule.entries registry) := by
  unfold ligatureEntries LigatureRule.entries
  rw [sideBySide_eq]
  by_cases hfew : rule.components.length < 2
  · rw [if_pos hfew, if_pos hfew]
    rfl
  · rw [if_neg hfew, if_neg hfew]

theorem oneToManyEntries_eq (registry : Registry) (rule : OneToManyRule) :
    oneToManyEntries registry rule = ofExcept (rule.entries registry) := by
  unfold oneToManyEntries OneToManyRule.entries
  rw [sideBySide_eq]
  cases rule.targets.isEmpty <;> rfl

/-- The fault of the first two positions of different sizes, looked for from position `i` on. -/
def unevenPosition? (before after : List Element) :
    Nat → List (List Glyph × List Glyph) → Option (Option RuleFault)
  | _, [] => some none
  | i, (b, a) :: rest =>
    if b.length = a.length then unevenPosition? before after (i + 1) rest
    else do return some (.reorderPosition (i + 1) (← before[i]?) (← after[i]?) b.length a.length)

def reorderPositions (registry : Registry) (rule : ReorderRule) :
    ExceptT RuleFault Option (List (List Glyph) × List (List Glyph) × Nat) := do
  let count := rule.before.length
  if count ≠ rule.after.length then throw (.reorderCounts count rule.after.length)
  if count < 2 ∨ 4 < count then throw (.reorderLength count)
  let before ← registry.positionsOf rule.before
  let after ← registry.positionsOf rule.after
  match ← unevenPosition? rule.before rule.after 0 (before.zip after) with
  | some fault => throw fault
  | none =>
    match ← commonSize rule.before before with
    | .error m => throw (.reorderSizes m.first m.other m.firstSize m.otherSize)
    | .ok size =>
      if ReorderRule.maxWindows < size then
        throw (.tooManyWindows size ReorderRule.maxWindows)
      return (before, after, size)

/-- The place of a glyph, which is written as one byte counted from the digit zero. -/
def placeIn (after : List Glyph) (g : Glyph) : ExceptT RuleFault Option Nat :=
  match after.idxOf? g with
  | some place => do
    let _ ← sum 8 0x30 (place % 256)
    return place
  | none => throw (.missingGlyph g)

def detect (before after : List Glyph) : ExceptT RuleFault Option Verb := do
  if before.length ≠ after.length then throw (.windowSides before.length after.length)
  if before.length < 2 ∨ 4 < before.length then throw (.windowLength before.length)
  let _ ← before.mapM (placeIn after)
  Verb.detect before after

def window (rule : ReorderRule) (before after : List (List Glyph)) (k : Nat) :
    CheckedM Window := do
  let b ← column before k
  let a ← column after k
  let verb ← atLine rule.line (detect b a)
  let window : Window := ⟨b, a, verb, rule.line⟩
  CompileM.report (.window window)
  return window

def windows (registry : Registry) (rule : ReorderRule) : CheckedM (List Window) := do
  let (before, after, size) ← atLine rule.line (reorderPositions registry rule)
  (List.range size).mapM (window rule before after)

def allWindows (registry : Registry) (rules : List ReorderRule) : CheckedM (List Window) := do
  let perRule ← rules.mapM (windows registry)
  let all := perRule.flatten
  CompileM.report (.reorderExpanded rules.length all.length)
  return all

/-- Elements and positions are looked at in step, whatever was passed over before. -/
theorem unevenPosition?_from (px py : List Element) {xs ys : List Element}
    {before after : List (List Glyph)} (hp : px.length = py.length)
    (hx : xs.length = before.length) (hy : ys.length = after.length)
    (h : before.length = after.length) :
    unevenPosition? (px ++ xs) (py ++ ys) px.length (before.zip after) =
      some ((((xs.zip before).zip (ys.zip after)).zipIdx px.length).findSome? fun e =>
        if e.1.1.2.length = e.1.2.2.length then none
        else some (.reorderPosition (e.2 + 1) e.1.1.1 e.1.2.1 e.1.1.2.length e.1.2.2.length)) := by
  induction before generalizing px py xs ys after with
  | nil =>
    rw [List.length_eq_zero_iff.mp hx]
    rfl
  | cons b bs ih =>
    obtain ⟨a, as, rfl⟩ := List.exists_cons_of_length_eq_add_one h.symm
    obtain ⟨x, xs, rfl⟩ := List.exists_cons_of_length_eq_add_one hx
    obtain ⟨y, ys, rfl⟩ := List.exists_cons_of_length_eq_add_one hy
    simp only [List.length_cons, Nat.add_right_cancel_iff] at hx hy h
    rw [List.zip_cons_cons, List.zip_cons_cons, List.zip_cons_cons, List.zip_cons_cons,
      List.zipIdx_cons, List.findSome?_cons, unevenPosition?]
    by_cases hsize : b.length = a.length
    · have hnext := ih (px ++ [x]) (py ++ [y]) (by simp [hp]) hx hy h
      simp only [List.append_assoc, List.singleton_append, List.length_append,
        List.length_singleton] at hnext
      simp only [if_pos hsize, hnext]
    · have hsecond : (py ++ y :: ys)[px.length]? = some y := by simp [hp]
      simp [hsize, hsecond]

theorem unevenPosition?_eq {xs ys : List Element} {before after : List (List Glyph)}
    (hx : xs.length = before.length) (hy : ys.length = after.length)
    (h : before.length = after.length) :
    unevenPosition? xs ys 0 (before.zip after) =
      some (ReorderRule.unevenPosition? (xs.zip before) (ys.zip after)) :=
  unevenPosition?_from [] [] rfl hx hy h

theorem mapM_placeIn {after : List Glyph} (h : after.length ≤ 4) (before : List Glyph) :
    before.mapM (placeIn after) = ofExcept (Verb.places before after) := by
  refine mapM_ofExcept fun g _ => ?_
  unfold placeIn
  cases hplace : after.idxOf? g with
  | none => rfl
  | some place =>
    have hlt : place < after.length := (List.findIdx?_eq_some_iff_getElem.mp hplace).1
    have hsum : sum 8 0x30 (place % 256) = some (0x30 + place % 256) := if_pos (by omega)
    dsimp only
    rw [hsum]
    rfl

/-- A window is rejected for its sizes, or else all its places are written out. -/
theorem detect_eq (before after : List Glyph) :
    detect before after = ofExcept (Verb.detect before after) := by
  unfold detect
  by_cases hsides : before.length ≠ after.length
  · rw [if_pos hsides, Verb.detect, if_pos hsides]
    rfl
  · by_cases hlength : before.length < 2 ∨ 4 < before.length
    · rw [if_neg hsides, if_pos hlength, Verb.detect, if_neg hsides, if_pos hlength]
      rfl
    · rw [if_neg hsides, if_neg hlength, mapM_placeIn (by omega)]
      have hdetect : Verb.detect before after =
          Verb.places before after >>= fun _ => Verb.detect before after := by
        unfold Verb.detect
        rw [if_neg hsides, if_neg hlength]
        cases Verb.places before after <;> rfl
      rw [hdetect]
      exact ofExcept_bind fun _ _ => by rw [← hdetect]; rfl

theorem reorderPositions_eq (registry : Registry) (rule : ReorderRule) :
    reorderPositions registry rule = ofExcept (rule.positions registry) := by
  unfold reorderPositions ReorderRule.positions
  dsimp only
  by_cases hcount : rule.before.length ≠ rule.after.length
  · rw [if_pos hcount, if_pos hcount]
    rfl
  · by_cases hlength : rule.before.length < 2 ∨ 4 < rule.before.length
    · rw [if_neg hcount, if_neg hcount, if_pos hlength, if_pos hlength]
      rfl
    · rw [if_neg hcount, if_neg hcount, if_neg hlength, if_neg hlength]
      refine ofExcept_bind fun before hbefore => ?_
      refine ofExcept_bind fun after hafter => ?_
      have hx := length_of_mapM_ok hbefore
      have hy := length_of_mapM_ok hafter
      rw [access_bind (unevenPosition?_eq hx.symm hy.symm (by omega))]
      cases ReorderRule.unevenPosition? (rule.before.zip before) (rule.after.zip after) with
      | some fault => rfl
      | none =>
        dsimp only
        rw [access_bind (commonSize_eq hx.symm)]
        cases Metamorphosis.commonSize (rule.before.zip before) with
        | error m => rfl
        | ok size =>
          dsimp only
          by_cases hmany : ReorderRule.maxWindows < size
          · rw [if_pos hmany, if_pos hmany]
            rfl
          · rw [if_neg hmany, if_neg hmany]
            rfl

theorem window_eq {rule : ReorderRule} {before after : List (List Glyph)} {k : Nat}
    (hb : ∀ position ∈ before, k < position.length)
    (ha : ∀ position ∈ after, k < position.length) :
    window rule before after k = of (do
      let verb ← CompileM.atLine rule.line
        (Verb.detect (Metamorphosis.column before k) (Metamorphosis.column after k))
      let window : Window :=
        ⟨Metamorphosis.column before k, Metamorphosis.column after k, verb, rule.line⟩
      CompileM.report (.window window)
      return window) := by
  unfold window
  rw [CheckedM.access_bind (column_eq hb), CheckedM.access_bind (column_eq ha), detect_eq]
  exact CheckedM.of_bind fun _ _ _ _ => rfl

theorem windows_eq (registry : Registry) (rule : ReorderRule) :
    windows registry rule = of (rule.windows registry) := by
  unfold windows ReorderRule.windows
  rw [reorderPositions_eq]
  refine CheckedM.of_bind fun _ result _ hresult => ?_
  obtain ⟨before, after, size⟩ := result
  obtain ⟨hpositions, -⟩ := CompileM.exec_atLine_inv hresult
  obtain ⟨_, _, _, _, _, hsizes, _⟩ := ReorderRule.positions_ok_iff.mp hpositions
  rw [List.forall_mem_append] at hsizes
  refine CheckedM.mapM_of fun k hk => ?_
  have hlt := List.mem_range.mp hk
  refine window_eq ?_ ?_
  · intro position hp
    rwa [hsizes.1 position hp]
  · intro position hp
    rwa [hsizes.2 position hp]

theorem allWindows_eq (registry : Registry) (rules : List ReorderRule) :
    allWindows registry rules = of (ReorderRule.allWindows registry rules) := by
  unfold allWindows
  rw [CheckedM.mapM_of fun rule _ => windows_eq registry rule]
  exact CheckedM.of_bind fun _ _ _ _ => rfl

end Checked

/-- Ligatures with two components or more and one-to-many rules with a target or more have entries
exactly if all their elements fit together. There is one entry for each glyph of the largest element,
and no place is looked at that a list does not have. The order of the components or targets changes
neither whether there are entries nor how many. -/
theorem entries_spread (registry : Registry) :
    (∀ ligature line, SpreadsEntries registry ligature 2 fun components =>
      LigatureRule.entries registry ⟨ligature, components, line⟩) ∧
    (∀ source line, SpreadsEntries registry source 1 fun targets =>
      OneToManyRule.entries registry ⟨source, targets, line⟩) ∧
    (∀ rule : LigatureRule,
      Checked.ligatureEntries registry rule = Checked.ofExcept (rule.entries registry)) ∧
    ∀ rule : OneToManyRule,
      Checked.oneToManyEntries registry rule = Checked.ofExcept (rule.entries registry) := by
  refine ⟨fun ligature line => ?_, fun source line => ?_, ?_, ?_⟩
  · exact spreadsEntries_of_ok_iff fun _ _ => LigatureRule.entries_ok_iff
  · exact spreadsEntries_of_ok_iff fun _ _ => OneToManyRule.entries_ok_iff
  · exact Checked.ligatureEntries_eq registry
  · exact Checked.oneToManyEntries_eq registry

end Metamorphosis
