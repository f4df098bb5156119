import Metamorphosis.Proofs.StateTable.Chain
import Metamorphosis.Proofs.StateTable.Run
import Metamorphosis.Proofs.Stretch

namespace Metamorphosis

namespace StateTable

/-- The state that waits for a word after a target, or for a target. -/
def waitState : Option Nat → String
  | none => start
  | some k => awaiting k

theorem awaiting_injective {i j : Nat} (h : awaiting i = awaiting j) : i = j := by
  have hsaw : ∀ n, sawContext n ≠ "SawTarget" := by
    intro n he
    have hl := congrArg String.toList he
    simp [sawContext, numbered] at hl
  unfold awaiting at h
  split at h <;> split at h
  next => omega
  next => exact absurd h.symm (hsaw j)
  next => exact absurd h (hsaw i)
  next => exact numbered_injective h

theorem awaiting_ne_start (i : Nat) : awaiting i ≠ start := by
  unfold awaiting
  split
  next => decide
  next => exact sawContext_ne_start i

theorem waitState_injective {o o' : Option Nat} (h : waitState o = waitState o') : o = o' := by
  cases o with
  | none =>
    cases o' with
    | none => rfl
    | some j => exact absurd h.symm (awaiting_ne_start j)
  | some i =>
    cases o' with
    | none => exact absurd h (awaiting_ne_start i)
    | some j => rw [awaiting_injective h]

variable {length : Nat}

/-- The transition at the glyph that goes on with a word of `k` positions. -/
def beforeStep (length k : Nat) : String :=
  if k + 1 < length then sawContext (k + 1) else "DoSubstitution"

/-- A target is marked wherever it stands; after it a glyph goes on to the next position or stays at
its own. -/
theorem mem_chainBeforeRoutes {r : Route} :
    r ∈ chainBeforeRoutes length ↔
      (∃ o, (∀ k, o = some k → k < length) ∧ r = ⟨waitState o, "Target", "MarkTarget"⟩) ∨
      (∃ k, k < length ∧
        r = ⟨waitState (some k), contextClass (k + 1), beforeStep length k⟩) ∨
      ∃ j, j + 1 < length ∧
        r = ⟨waitState (some (j + 1)), contextClass (j + 1), sawContext (j + 1)⟩ := by
  unfold chainBeforeRoutes
  simp only [List.cons_append, List.mem_cons, List.mem_flatMap, List.mem_range, List.mem_append,
    List.not_mem_nil, or_false]
  constructor
  · rintro (rfl | ⟨i, hi, rfl | hr | rfl⟩)
    · exact Or.inl ⟨none, by simp, rfl⟩
    · exact Or.inr (Or.inl ⟨i, hi, rfl⟩)
    · split at hr
      next h0 =>
        obtain ⟨j, rfl⟩ : ∃ j, i = j + 1 := ⟨i - 1, by omega⟩
        exact Or.inr (Or.inr ⟨j, hi, List.mem_singleton.mp hr⟩)
      next => cases hr
    · exact Or.inl ⟨some i, by simp [hi], rfl⟩
  · rintro (⟨o, ho, rfl⟩ | ⟨k, hk, rfl⟩ | ⟨j, hj, rfl⟩)
    · cases o with
      | none => exact Or.inl rfl
      | some k => exact Or.inr ⟨k, ho k rfl, Or.inr (Or.inr rfl)⟩
    · exact Or.inr ⟨k, hk, Or.inl rfl⟩
    · exact Or.inr ⟨j + 1, hj, Or.inr (Or.inl (by simp [waitState, awaiting]))⟩

theorem find?_chainBeforeRoutes_target {o : Option Nat} (ho : ∀ k, o = some k → k < length) :
    (chainBeforeRoutes length).find?
        (fun r => r.state == waitState o && r.className == "Target") =
      some ⟨waitState o, "Target", "MarkTarget"⟩ := by
  apply find?_eq_some_of_unique
  · exact mem_chainBeforeRoutes.mpr (Or.inl ⟨o, ho, rfl⟩)
  · simp
  · intro r hr hp
    simp only [Bool.and_eq_true, beq_iff_eq] at hp
    rcases mem_chainBeforeRoutes.mp hr with ⟨o', _, rfl⟩ | ⟨k, _, rfl⟩ | ⟨j, _, rfl⟩
    · rw [waitState_injective hp.1]
    · exact absurd hp.2 (contextClass_ne_target (k + 1))
    · exact absurd hp.2 (contextClass_ne_target (j + 1))

theorem find?_chainBeforeRoutes {o : Option Nat} {j : Nat} (hj : j < length) :
    (chainBeforeRoutes length).find?
        (fun r => r.state == waitState o && r.className == contextClass (j + 1)) =
      if o = some j ∨ (o = some (j + 1) ∧ j + 1 < length) then
        some ⟨waitState o, contextClass (j + 1),
          if o = some j then beforeStep length j else sawContext (j + 1)⟩ else none := by
  apply find?_eq_ite
  · rintro (rfl | ⟨rfl, hj'⟩)
    · exact mem_chainBeforeRoutes.mpr (Or.inr (Or.inl ⟨j, hj, by simp⟩))
    · exact mem_chainBeforeRoutes.mpr (Or.inr (Or.inr ⟨j, hj', by simp⟩))
  · simp
  · intro r hr hp
    simp only [Bool.and_eq_true, beq_iff_eq] at hp
    rcases mem_chainBeforeRoutes.mp hr with ⟨o', _, rfl⟩ | ⟨k, _, rfl⟩ | ⟨i, hi, rfl⟩
    · exact absurd hp.2.symm (contextClass_ne_target (j + 1))
    · have hn : k + 1 = j + 1 := numbered_injective hp.2
      have ho : waitState (some k) = waitState o := hp.1
      obtain rfl : k = j := by omega
      obtain rfl := waitState_injective ho
      exact ⟨Or.inl rfl, by simp⟩
    · have hn : i + 1 = j + 1 := numbered_injective hp.2
      have ho : waitState (some (i + 1)) = waitState o := hp.1
      obtain rfl : i = j := by omega
      obtain rfl := waitState_injective ho
      exact ⟨Or.inr ⟨rfl, hi⟩, by simp⟩

theorem mem_chainBeforeTransitions {tr : Transition} :
    tr ∈ chainBeforeTransitions length ↔
      tr = ⟨"MarkTarget", waitState (some 0), [.markGlyph]⟩ ∨
      (∃ j, j + 1 < length ∧ tr = ⟨sawContext (j + 1), waitState (some (j + 1)), []⟩) ∨
      tr = ⟨"DoSubstitution", start, [.substituteMarked "Subst"]⟩ := by
  unfold chainBeforeTransitions
  simp only [List.cons_append, List.mem_cons, List.mem_append, List.mem_map, List.mem_range'_1,
    List.not_mem_nil, or_false]
  apply or_congr_right
  apply or_congr_left
  constructor
  · rintro ⟨i, hi, rfl⟩
    obtain ⟨j, rfl⟩ : ∃ j, i = j + 1 := ⟨i - 1, by omega⟩
    exact ⟨j, by omega, rfl⟩
  · rintro ⟨j, hj, rfl⟩
    exact ⟨j + 1, by omega, rfl⟩

theorem find?_chainBeforeTransitions_mark :
    (chainBeforeTransitions length).find? (fun tr => tr.name == "MarkTarget") =
      some ⟨"MarkTarget", waitState (some 0), [.markGlyph]⟩ := by
  apply find?_eq_some_of_unique
  · exact mem_chainBeforeTransitions.mpr (Or.inl rfl)
  · simp
  · intro tr ht hn
    rcases mem_chainBeforeTransitions.mp ht with rfl | ⟨j, _, rfl⟩ | rfl
    · rfl
    · exact absurd (beq_iff_eq.mp hn) (sawContext_ne_markTarget (j + 1))
    · simp at hn

theorem find?_chainBeforeTransitions_last :
    (chainBeforeTransitions length).find? (fun tr => tr.name == "DoSubstitution") =
      some ⟨"DoSubstitution", start, [.substituteMarked "Subst"]⟩ := by
  apply find?_eq_some_of_unique
  · exact mem_chainBeforeTransitions.mpr (Or.inr (Or.inr rfl))
  · simp
  · intro tr ht hn
    rcases mem_chainBeforeTransitions.mp ht with rfl | ⟨j, _, rfl⟩ | rfl
    · simp at hn
    · exact absurd (beq_iff_eq.mp hn) (sawContext_ne_doSubstitution (j + 1))
    · rfl

theorem find?_chainBeforeTransitions {j : Nat} (hj : j + 1 < length) :
    (chainBeforeTransitions length).find? (fun tr => tr.name == sawContext (j + 1)) =
      some ⟨sawContext (j + 1), waitState (some (j + 1)), []⟩ := by
  apply find?_eq_some_of_unique
  · exact mem_chainBeforeTransitions.mpr (Or.inr (Or.inl ⟨j, hj, rfl⟩))
  · simp
  · intro tr ht hn
    rcases mem_chainBeforeTransitions.mp ht with rfl | ⟨i, _, rfl⟩ | rfl
    · exact absurd (beq_iff_eq.mp hn).symm (sawContext_ne_markTarget (j + 1))
    · have he : i + 1 = j + 1 := numbered_injective (beq_iff_eq.mp hn)
      rw [he]
    · exact absurd (beq_iff_eq.mp hn).symm (sawContext_ne_doSubstitution (j + 1))

/-- How far the word after the last target is after another glyph. A word that is over waits for
the next target. -/
def beforeAdvance (positions : List (List Glyph)) (targets : List Glyph) (o : Option Nat)
    (g : Glyph) : Option Nat :=
  if targets.contains g then some 0
  else (placeOf? positions g).bind fun j =>
    if j + 1 < positions.length ∧ (o = some j ∨ o = some (j + 1)) then some (j + 1) else none

/-- The glyph is the last that the word needs. -/
def completes (positions : List (List Glyph)) (o : Option Nat) (g : Glyph) : Bool :=
  (placeOf? positions g).any fun j => j + 1 == positions.length && o == some j

variable {positions : List (List Glyph)} {targets : List Glyph}

theorem reaction_chainBefore (ha : Apart positions targets) (states : List String)
    {o : Option Nat} (ho : ∀ k, o = some k → k < positions.length) (g : Glyph) :
    (build (chainClasses positions targets) states (chainBeforeRoutes positions.length)
        (chainBeforeTransitions positions.length)).reaction (waitState o) g =
      (waitState (beforeAdvance positions targets o g),
        (if completes positions o g then [.substituteMarked "Subst"] else []) ++
          if targets.contains g then [.markGlyph] else []) := by
  rw [reaction, next?_build, classOf?_chainClasses ha, chainClass?, beforeAdvance, completes]
  cases hp : placeOf? positions g with
  | none =>
    dsimp only
    by_cases hg : targets.contains g = true
    · rw [if_pos hg, if_pos hg, Option.bind_some, find?_chainBeforeRoutes_target ho,
        Option.bind_some, find?_chainBeforeTransitions_mark, if_pos hg]
      rfl
    · rw [if_neg hg, if_neg hg, if_neg hg]
      rfl
  | some j =>
    have hj := placeOf?_lt hp
    have hg : ¬targets.contains g = true := by
      rw [List.contains_iff_mem]
      intro hg
      rw [placeOf?_of_target ha hg] at hp
      cases hp
    dsimp only
    have hroute := find?_chainBeforeRoutes (o := o) hj
    rw [if_neg hg, if_neg hg, List.append_nil, Option.bind_some, Option.bind_some, Option.any_some]
    by_cases hlast : j + 1 < positions.length
    · -- inside the word nothing is rewritten yet
      have hne : (j + 1 == positions.length) = false := beq_false_of_ne (by omega)
      rw [beforeStep, if_pos hlast, ite_self] at hroute
      rw [hne, Bool.false_and]
      by_cases h : o = some j ∨ o = some (j + 1)
      · rw [if_pos (h.imp_right fun h => ⟨h, hlast⟩)] at hroute
        rw [hroute, Option.bind_some, find?_chainBeforeTransitions hlast, if_pos ⟨hlast, h⟩]
        rfl
      · rw [if_neg (fun hn => h (hn.imp_right And.left))] at hroute
        rw [hroute, if_neg (fun hn => h hn.2)]
        rfl
    · have he : (j + 1 == positions.length) = true := beq_iff_eq.mpr (by omega)
      have hover : ¬(j + 1 < positions.length ∧ (o = some j ∨ o = some (j + 1))) :=
        fun hn => hlast hn.1
      rw [he, Bool.true_and, if_neg hover]
      by_cases h : o = some j
      · have hb : (o == some j) = true := beq_iff_eq.mpr h
        rw [if_pos (Or.inl h), if_pos h, beforeStep, if_neg hlast] at hroute
        rw [hroute, Option.bind_some, find?_chainBeforeTransitions_last, hb]
        rfl
      · have hb : (o == some j) = false := beq_false_of_ne h
        rw [if_neg (fun hn => hn.elim h fun hn => hlast hn.2)] at hroute
        rw [hroute, hb]
        rfl

/-- How far the word after the last target is after the first `n` glyphs of a run. -/
def beforeProgress (positions : List (List Glyph)) (targets run : List Glyph) : Nat → Option Nat
  | 0 => none
  | n + 1 => run[n]?.bind (beforeAdvance positions targets (beforeProgress positions targets run n))

theorem beforeProgress_lt (hl : 0 < positions.length) {run : List Glyph} {n k : Nat}
    (h : beforeProgress positions targets run n = some k) : k < positions.length := by
  cases n with
  | zero => cases h
  | succ n =>
    obtain ⟨g, _, h⟩ := Option.bind_eq_some_iff.mp h
    unfold beforeAdvance at h
    split at h
    next =>
      cases h
      exact hl
    next =>
      obtain ⟨j, _, h⟩ := Option.bind_eq_some_iff.mp h
      split at h
      next hj =>
        cases h
        exact hj.1
      next => cases h

theorem beforeAdvance_eq_zero {o : Option Nat} {g : Glyph} :
    beforeAdvance positions targets o g = some 0 ↔ g ∈ targets := by
  unfold beforeAdvance
  rw [← List.contains_iff_mem]
  split
  next h => exact iff_of_true rfl h
  next h =>
    constructor
    · intro he
      obtain ⟨j, _, he⟩ := Option.bind_eq_some_iff.mp he
      split at he <;> simp at he
    · exact fun hn => absurd hn h

theorem beforeAdvance_eq_succ (ha : Apart positions targets) {o : Option Nat} {g : Glyph}
    {k : Nat} (hk : k + 1 < positions.length) :
    beforeAdvance positions targets o g = some (k + 1) ↔
      g ∈ positions[k] ∧ (o = some k ∨ o = some (k + 1)) := by
  have hplace : placeOf? positions g = some k ↔ g ∈ positions[k] := by
    rw [placeOf?_eq_some ha, List.getElem?_eq_getElem (by omega : k < positions.length)]
    simp
  rw [← hplace]
  unfold beforeAdvance
  split
  next h =>
    constructor
    · intro he
      cases he
    · rintro ⟨hp, _⟩
      rw [placeOf?_of_target ha (List.contains_iff_mem.mp h)] at hp
      cases hp
  next =>
    constructor
    · intro he
      obtain ⟨j, hj, he⟩ := Option.bind_eq_some_iff.mp he
      split at he
      next h =>
        obtain rfl : j = k := Nat.succ.inj (Option.some.inj he)
        exact ⟨hj, h.2⟩
      next => cases he
    · rintro ⟨hp, ho⟩
      rw [hp, Option.bind_some, if_pos ⟨hk, ho⟩]

/-- The indices of a run at which targets stand. -/
def isTargetAt (targets run : List Glyph) (n : Nat) : Bool :=
  run[n]?.any fun g => targets.contains g

/-- The glyphs of a run after an index up to another. -/
def runBetween (run : List Glyph) (m n : Nat) : List Glyph :=
  (run.take n).drop (m + 1)

theorem runBetween_succ {run : List Glyph} {m n : Nat} {g : Glyph} (hm : m < n)
    (hg : run[n]? = some g) : runBetween run m (n + 1) = runBetween run m n ++ [g] := by
  have hn := (List.getElem?_eq_some_iff.mp hg).1
  unfold runBetween
  rw [take_succ_of_getElem? hg, List.drop_append_of_le_length (by rw [List.length_take]; omega)]

theorem runBetween_self (run : List Glyph) (n : Nat) : runBetween run n (n + 1) = [] := by
  unfold runBetween
  exact List.drop_of_length_le (List.length_take_le _ _)

/-- A word waits to go on exactly if the run since the last target spells it. -/
theorem beforeProgress_iff (ha : Apart positions targets) {run : List Glyph} {n : Nat}
    (hn : n ≤ run.length) {k : Nat} (hk : k < positions.length) :
    beforeProgress positions targets run n = some k ↔
      ∃ m, lastMark (isTargetAt targets run) n = some m ∧
        spells (positions.take k) (runBetween run m n) = true := by
  induction n generalizing k with
  | zero => simp [beforeProgress, lastMark]
  | succ n ih =>
    have hg : run[n]? = some run[n] := List.getElem?_eq_getElem (by omega)
    have hmark : isTargetAt targets run n = targets.contains run[n] := by
      rw [isTargetAt, hg, Option.any_some]
    rw [beforeProgress, hg, Option.bind_some, lastMark, hmark]
    by_cases ht : run[n] ∈ targets
    · -- a target begins the wait anew
      have hzero : beforeAdvance positions targets (beforeProgress positions targets run n) run[n] =
          some 0 := beforeAdvance_eq_zero.mpr ht
      rw [if_pos (List.contains_iff_mem.mpr ht), hzero]
      have hempty : positions.take k = [] ↔ k = 0 := by
        rw [List.take_eq_nil_iff]
        have hne : positions ≠ [] := List.ne_nil_of_length_pos (by omega)
        simp [hne]
      constructor
      · intro he
        obtain rfl : 0 = k := Option.some.inj he
        exact ⟨n, rfl, by rw [runBetween_self]; rfl⟩
      · rintro ⟨m, hm, hs⟩
        obtain rfl : n = m := Option.some.inj hm
        rw [runBetween_self, spells_nil_right, List.isEmpty_iff, hempty] at hs
        rw [hs]
    · rw [if_neg (by simpa using ht)]
      cases k with
      | zero =>
        rw [beforeAdvance_eq_zero]
        constructor
        · exact fun h => absurd h ht
        · rintro ⟨m, hm, hs⟩
          rw [runBetween_succ (lastMark_eq_some.mp hm).1 hg, List.take_zero] at hs
          cases hr : runBetween run m n <;> rw [hr] at hs <;> cases hs
      | succ k =>
        have hp : positions[k]? = some positions[k] := List.getElem?_eq_getElem (by omega)
        rw [beforeAdvance_eq_succ ha hk, ih (by omega) (by omega), ih (by omega) hk,
          take_succ_of_getElem? hp]
        constructor
        · rintro ⟨hmem, ⟨m, hm, hs⟩ | ⟨m, hm, hs⟩⟩
          · refine ⟨m, hm, ?_⟩
            rw [runBetween_succ (lastMark_eq_some.mp hm).1 hg, spells_concat,
              List.contains_iff_mem.mpr hmem, hs]
            rfl
          · refine ⟨m, hm, ?_⟩
            rw [runBetween_succ (lastMark_eq_some.mp hm).1 hg, spells_concat,
              List.contains_iff_mem.mpr hmem, hs]
            simp
        · rintro ⟨m, hm, hs⟩
          rw [runBetween_succ (lastMark_eq_some.mp hm).1 hg, spells_concat, Bool.and_eq_true,
            Bool.or_eq_true] at hs
          exact ⟨List.contains_iff_mem.mp hs.1,
            hs.2.imp (fun h => ⟨m, hm, h⟩) fun h => ⟨m, hm, h⟩⟩

theorem mem_runBetween {run : List Glyph} {i m n : Nat} {g : Glyph} (him : i < m) (hmn : m < n)
    (hg : run[m]? = some g) : g ∈ runBetween run i n := by
  apply List.mem_of_getElem? (i := m - (i + 1))
  rw [runBetween, List.getElem?_drop, Nat.add_sub_cancel' him, List.getElem?_take_of_lt hmn, hg]

theorem drop_eq_runBetween {run : List Glyph} {i n : Nat} {g : Glyph} (hi : i < n)
    (hg : run[n]? = some g) :
    run.drop (i + 1) = runBetween run i n ++ g :: run.drop (n + 1) := by
  obtain ⟨hn, rfl⟩ := List.getElem?_eq_some_iff.mp hg
  have hlen : i + 1 ≤ (run.take n).length := by
    rw [List.length_take]
    omega
  rw [runBetween, ← List.drop_eq_getElem_cons hn, ← List.drop_append_of_le_length hlen,
    List.take_append_drop]

section Commits

variable {ps : List (List Glyph)} {p : List Glyph} {run : List Glyph}

/-- The indices of a run at which the word after the last target is over. -/
def isCompletedAt (positions : List (List Glyph)) (targets run : List Glyph) (n : Nat) : Bool :=
  run[n]?.any (completes positions (beforeProgress positions targets run n))

theorem completes_iff (ha : Apart (ps ++ [p]) targets) {o : Option Nat} {g : Glyph} :
    completes (ps ++ [p]) o g = true ↔ o = some ps.length ∧ g ∈ p := by
  have hlast : placeOf? (ps ++ [p]) g = some ps.length ↔ g ∈ p := by
    rw [placeOf?_eq_some ha, List.getElem?_concat_length]
    simp
  rw [← hlast, completes]
  cases placeOf? (ps ++ [p]) g with
  | none => simp
  | some j =>
    simp only [Option.any_some, List.length_append, List.length_singleton, Bool.and_eq_true,
      beq_iff_eq, Option.some.injEq]
    constructor
    · rintro ⟨hj, rfl⟩
      exact ⟨congrArg some (by omega), by omega⟩
    · rintro ⟨rfl, rfl⟩
      exact ⟨rfl, rfl⟩

theorem isCompletedAt_iff (ha : Apart (ps ++ [p]) targets) {n : Nat} :
    isCompletedAt (ps ++ [p]) targets run n = true ↔
      ∃ i g, lastMark (isTargetAt targets run) n = some i ∧
        spells ps (runBetween run i n) = true ∧ run[n]? = some g ∧ g ∈ p := by
  unfold isCompletedAt
  cases hg : run[n]? with
  | none => simp
  | some g =>
    have hn := (List.getElem?_eq_some_iff.mp hg).1
    have hprogress := beforeProgress_iff ha (by omega : n ≤ run.length)
      (by simp : ps.length < (ps ++ [p]).length)
    rw [List.take_left] at hprogress
    rw [Option.any_some, completes_iff ha, hprogress]
    constructor
    · rintro ⟨⟨i, hi, hs⟩, hp⟩
      exact ⟨i, g, hi, hs, rfl, hp⟩
    · rintro ⟨i, g', hi, hs, hg', hp⟩
      rw [Option.some.inj hg']
      exact ⟨⟨i, hi, hs⟩, hp⟩

/-- The marks that are rewritten are the targets before a word over the positions. -/
theorem isRewritten_chainBefore (ha : Apart (ps ++ [p]) targets) {i : Nat} :
    isRewritten (isTargetAt targets run) (isCompletedAt (ps ++ [p]) targets run) run.length i =
      (isTargetAt targets run i && beginsWith (ps ++ [p]) (run.drop (i + 1))) := by
  rw [Bool.eq_iff_iff, isRewritten_eq_true, Bool.and_eq_true, beginsWith_concat]
  constructor
  · rintro ⟨n, hn, hc, hm⟩
    obtain ⟨i', g, hm', hs, hg, hp⟩ := (isCompletedAt_iff ha).mp hc
    obtain rfl : i = i' := Option.some.inj (hm.symm.trans hm')
    obtain ⟨hi, hmark, _⟩ := lastMark_eq_some.mp hm
    exact ⟨hmark, runBetween run i n, g, run.drop (n + 1), drop_eq_runBetween hi hg, hs, hp⟩
  · rintro ⟨hmark, word, g, rest, hrun, hs, hp⟩
    have hat : ∀ k, run[i + 1 + k]? = (word ++ g :: rest)[k]? := by
      intro k
      rw [← hrun, List.getElem?_drop]
    have hg : run[i + 1 + word.length]? = some g := by
      rw [hat, List.getElem?_append_right (Nat.le_refl _)]
      simp
    have hword : runBetween run i (i + 1 + word.length) = word := by
      rw [runBetween, List.drop_take, hrun, Nat.add_sub_cancel_left, List.take_left]
    have hlast : lastMark (isTargetAt targets run) (i + 1 + word.length) = some i := by
      refine lastMark_eq_some.mpr ⟨by omega, hmark, ?_⟩
      -- a glyph of the word stands at a position, so it is no target
      intro j hj hj'
      have hx : run[j]? = some word[j - (i + 1)] := by
        have hk := hat (j - (i + 1))
        rw [Nat.add_sub_cancel' hj, List.getElem?_append_left (by omega)] at hk
        rw [hk, List.getElem?_eq_getElem]
      obtain ⟨q, hq, hxq⟩ := mem_of_spells hs word[j - (i + 1)] (List.getElem_mem _)
      have hno := ha.not_target q (List.mem_append_left _ hq) _ hxq
      rw [isTargetAt, hx, Option.any_some]
      simpa using hno
    refine ⟨i + 1 + word.length, (List.getElem?_eq_some_iff.mp hg).1, ?_, hlast⟩
    exact (isCompletedAt_iff ha).mpr ⟨i, g, hlast, by rw [hword]; exact hs, hg, hp⟩

/-- A word is over only once, for its last position is not the place of another of its glyphs. -/
theorem isCompletedAt_once (ha : Apart (ps ++ [p]) targets) {m n : Nat} (hmn : m < n)
    (hm : isCompletedAt (ps ++ [p]) targets run m = true)
    (hn : isCompletedAt (ps ++ [p]) targets run n = true) :
    lastMark (isTargetAt targets run) m ≠ lastMark (isTargetAt targets run) n := by
  obtain ⟨i, x, hi, _, hx, hxp⟩ := (isCompletedAt_iff ha).mp hm
  obtain ⟨i', y, hi', hs, _, _⟩ := (isCompletedAt_iff ha).mp hn
  intro he
  obtain rfl : i = i' := Option.some.inj (hi.symm.trans (he.trans hi'))
  have him := (lastMark_eq_some.mp hi).1
  obtain ⟨q, hq, hxq⟩ := mem_of_spells hs x (mem_runBetween him hmn hx)
  obtain ⟨k, hk⟩ := List.mem_iff_getElem?.mp hq
  have hkl := (List.getElem?_eq_some_iff.mp hk).1
  have hkp : (ps ++ [p])[k]? = some q := by rw [List.getElem?_append_left hkl, hk]
  have heq := ha.unique hkp List.getElem?_concat_length hxq hxp
  omega

end Commits

theorem chain_before_eq {patterns : List (List Glyph)} {entries : List (Glyph × Glyph)} :
    chain .before length patterns entries =
      (build (chainClasses (positionGlyphs patterns length) (entries.map Prod.fst))
        ((List.range length).map awaiting) (chainBeforeRoutes length)
        (chainBeforeTransitions length)).addSubstitution "Subst" entries := rfl

/-- A run gives the targets before a word over the positions their replacements. -/
theorem run_chainBefore {patterns : List (List Glyph)} {entries : List (Glyph × Glyph)}
    (hl : 0 < length)
    (ha : Apart (positionGlyphs patterns length) (entries.map Prod.fst)) (run : List Glyph) :
    (chain .before length patterns entries).run run = run.mapIdx fun i g =>
      if beginsWith (positionGlyphs patterns length) (run.drop (i + 1)) then
        (entries.lookup g).getD g
      else g := by
  have hlen := length_positionGlyphs patterns length
  have hread : ∀ n g, run[n]? = some g → (chain .before length patterns entries).reaction
      (waitState (beforeProgress (positionGlyphs patterns length) (entries.map Prod.fst) run n)) g =
        (waitState (beforeProgress (positionGlyphs patterns length) (entries.map Prod.fst) run
            (n + 1)),
          (if isCompletedAt (positionGlyphs patterns length) (entries.map Prod.fst) run n then
            [.substituteMarked "Subst"] else []) ++
          if isTargetAt (entries.map Prod.fst) run n then [.markGlyph] else []) := by
    intro n g hg
    have hlt : ∀ k, beforeProgress (positionGlyphs patterns length) (entries.map Prod.fst) run n =
        some k → k < (positionGlyphs patterns length).length :=
      fun k => beforeProgress_lt (by omega)
    have hr := reaction_chainBefore ha ((List.range length).map awaiting) hlt g
    rw [hlen] at hr
    have he : (chain .before length patterns entries).reaction (waitState (beforeProgress
      (positionGlyphs patterns length) (entries.map Prod.fst) run n)) g = _ := hr
    rw [he, beforeProgress, isCompletedAt, isTargetAt, hg, Option.bind_some, Option.any_some,
      Option.any_some]
  obtain ⟨ps, p, hps⟩ : ∃ ps p, positionGlyphs patterns length = ps ++ [p] := by
    have hne : positionGlyphs patterns length ≠ [] := List.ne_nil_of_length_pos (by omega)
    exact ⟨_, _, (List.dropLast_append_getLast hne).symm⟩
  rw [hps] at ha hread ⊢
  rw [run_of_substituteMarked "Subst"
    (fun n => waitState (beforeProgress (ps ++ [p]) (entries.map Prod.fst) run n))
    (isTargetAt (entries.map Prod.fst) run)
    (isCompletedAt (ps ++ [p]) (entries.map Prod.fst) run) rfl hread
    fun m n hmn hm hn => isCompletedAt_once ha hmn hm hn]
  apply mapIdx_congr
  intro i g hg
  rw [isRewritten_chainBefore ha, chain_before_eq, replace_build, isTargetAt, hg, Option.any_some]
  by_cases ht : g ∈ entries.map Prod.fst
  · rw [List.contains_iff_mem.mpr ht, Bool.true_and]
  · simp [lookup_eq_none_of_not_mem ht]

end StateTable

end Metamorphosis
