import Metamorphosis.Proofs.StateTable.Run
import Metamorphosis.StateTable.Adjacent

namespace Metamorphosis

namespace StateTable

/-- The class of a glyph that is or is not the context, and is or is not a target. -/
def adjacentClass? : Bool → Bool → Option String
  | true, false => some "Context"
  | false, true => some "Target"
  | true, true => some "TrgtAndCntx"
  | false, false => none

variable {glyph : Glyph} {entries : List (Glyph × Glyph)}

def adjacentClasses (glyph : Glyph) (targets : List Glyph) : List (String × List Glyph) :=
  [("Context", (Overlap.of targets [glyph]).contextOnly),
    ("Target", (Overlap.of targets [glyph]).targetOnly),
    ("TrgtAndCntx", (Overlap.of targets [glyph]).both)]

section Classes

variable {targets : List Glyph} {states : List String} {routes : List Route}
  {transitions : List Transition}

theorem mem_contextOnly {g : Glyph} :
    g ∈ (Overlap.of targets [glyph]).contextOnly ↔
      (g == glyph) = true ∧ targets.contains g = false := by
  simp [Overlap.of]

theorem mem_targetOnly {g : Glyph} :
    g ∈ (Overlap.of targets [glyph]).targetOnly ↔
      (g == glyph) = false ∧ targets.contains g = true := by
  simp [Overlap.of, and_comm]

theorem mem_both {g : Glyph} :
    g ∈ (Overlap.of targets [glyph]).both ↔ (g == glyph) = true ∧ targets.contains g = true := by
  simp [Overlap.of, and_comm]

theorem holds_adjacentClasses {name : String} {g : Glyph} :
    (build (adjacentClasses glyph targets) states routes transitions).Holds name g ↔
      adjacentClass? (g == glyph) (targets.contains g) = some name := by
  rw [holds_build]
  simp only [adjacentClasses, List.mem_cons, Prod.mk.injEq, List.not_mem_nil, or_false]
  constructor
  · rintro ⟨members, ⟨rfl, rfl⟩ | ⟨rfl, rfl⟩ | ⟨rfl, rfl⟩, hg⟩
    · obtain ⟨hc, ht⟩ := mem_contextOnly.mp hg
      rw [hc, ht]
      rfl
    · obtain ⟨hc, ht⟩ := mem_targetOnly.mp hg
      rw [hc, ht]
      rfl
    · obtain ⟨hc, ht⟩ := mem_both.mp hg
      rw [hc, ht]
      rfl
  · intro h
    cases hc : g == glyph <;> cases ht : targets.contains g <;> rw [hc, ht] at h
    · cases h
    · exact ⟨_, Or.inr (Or.inl ⟨(Option.some.inj h).symm, rfl⟩), mem_targetOnly.mpr ⟨hc, ht⟩⟩
    · exact ⟨_, Or.inl ⟨(Option.some.inj h).symm, rfl⟩, mem_contextOnly.mpr ⟨hc, ht⟩⟩
    · exact ⟨_, Or.inr (Or.inr ⟨(Option.some.inj h).symm, rfl⟩), mem_both.mpr ⟨hc, ht⟩⟩

theorem classOf?_adjacentClasses (g : Glyph) :
    (build (adjacentClasses glyph targets) states routes transitions).classOf? g =
      adjacentClass? (g == glyph) (targets.contains g) := by
  cases hc : adjacentClass? (g == glyph) (targets.contains g) with
  | none =>
    apply classOf?_eq_none
    intro name h
    rw [holds_adjacentClasses, hc] at h
    cases h
  | some name =>
    apply classOf?_eq_some (holds_adjacentClasses.mpr hc)
    intro other h
    rw [holds_adjacentClasses, hc] at h
    exact (Option.some.inj h).symm

theorem isOverlapping_of_mem {g : Glyph} (hg : (g == glyph) = true)
    (ht : targets.contains g = true) : (Overlap.of targets [glyph]).isOverlapping = true := by
  rw [Overlap.isOverlapping, Bool.not_eq_true', List.isEmpty_eq_false_iff]
  exact List.ne_nil_of_mem (mem_both.mpr ⟨hg, ht⟩)

end Classes

/-- The state after a glyph that is or is not the context. -/
def afterState (saw : Bool) : String :=
  if saw then "SawContext" else start

theorem adjacent_after_eq :
    adjacent .after glyph entries =
      (build (adjacentClasses glyph (entries.map Prod.fst)) ["SawContext"] afterRoutes
        (afterTransitions (Overlap.of (entries.map Prod.fst) [glyph]).isOverlapping)).addSubstitution
          "Subst" entries := rfl

theorem reaction_after (saw : Bool) (g : Glyph) :
    (adjacent .after glyph entries).reaction (afterState saw) g =
      (afterState (g == glyph),
        if saw && (entries.map Prod.fst).contains g then [.substituteCurrent "Subst"] else []) := by
  rw [reaction, adjacent_after_eq, next?_addSubstitution, next?_build, classOf?_adjacentClasses]
  cases hg : g == glyph <;> cases ht : (entries.map Prod.fst).contains g
  · cases saw <;> rfl
  · cases saw <;> rfl
  · cases saw <;> rfl
  · rw [isOverlapping_of_mem hg ht]
    cases saw <;> rfl

theorem beq_eq_decide_getElem? {run : List Glyph} {n : Nat} {g : Glyph} (hg : run[n]? = some g) :
    (g == glyph) = decide (run[n]? = some glyph) := by
  rw [hg]
  by_cases h : g = glyph <;> simp [h]

/-- A run gives the targets after the context glyph their replacements. -/
theorem run_after (run : List Glyph) :
    (adjacent .after glyph entries).run run = run.mapIdx fun i g =>
      if 0 < i ∧ run[i - 1]? = some glyph then (entries.lookup g).getD g else g := by
  rw [run_of_substituteCurrent "Subst"
    (fun n => afterState (decide (0 < n ∧ run[n - 1]? = some glyph)))
    (fun n => decide (0 < n ∧ run[n - 1]? = some glyph) &&
      run[n]?.any fun g => (entries.map Prod.fst).contains g) rfl]
  · apply mapIdx_congr
    intro i g hg
    rw [adjacent_after_eq, replace_build, hg]
    by_cases ht : g ∈ entries.map Prod.fst
    · simp only [Option.any_some, List.contains_iff_mem.mpr ht, Bool.and_true, decide_eq_true_eq]
    · simp [lookup_eq_none_of_not_mem ht]
  · intro n g hg
    have ht : (run[n]?.any fun g => (entries.map Prod.fst).contains g) =
        (entries.map Prod.fst).contains g := by rw [hg, Option.any_some]
    rw [reaction_after, beq_eq_decide_getElem? hg, ht]
    simp

/-- The state after a glyph that is or is not a target. -/
def beforeState (saw : Bool) : String :=
  if saw then "SawTarget" else start

theorem adjacent_before_eq :
    adjacent .before glyph entries =
      (build (adjacentClasses glyph (entries.map Prod.fst)) ["SawTarget"] beforeRoutes
        (beforeTransitions (Overlap.of (entries.map Prod.fst) [glyph]).isOverlapping)).addSubstitution
          "Subst" entries := rfl

theorem reaction_before (saw : Bool) (g : Glyph) :
    (adjacent .before glyph entries).reaction (beforeState saw) g =
      (beforeState ((entries.map Prod.fst).contains g),
        (if saw && g == glyph then [.substituteMarked "Subst"] else []) ++
          if (entries.map Prod.fst).contains g then [.markGlyph] else []) := by
  rw [reaction, adjacent_before_eq, next?_addSubstitution, next?_build, classOf?_adjacentClasses]
  cases hg : g == glyph <;> cases ht : (entries.map Prod.fst).contains g
  · cases saw <;> rfl
  · cases saw <;> rfl
  · cases saw <;> rfl
  · rw [isOverlapping_of_mem hg ht]
    cases saw <;> rfl

/-- The glyph before an index is a target. -/
def followsTarget (entries : List (Glyph × Glyph)) (run : List Glyph) : Nat → Bool
  | 0 => false
  | n + 1 => run[n]?.any fun g => (entries.map Prod.fst).contains g

/-- A run gives the targets before the context glyph their replacements. -/
theorem run_before (run : List Glyph) :
    (adjacent .before glyph entries).run run = run.mapIdx fun i g =>
      if run[i + 1]? = some glyph then (entries.lookup g).getD g else g := by
  rw [run_of_substituteMarked_next "Subst" (fun n => beforeState (followsTarget entries run n))
    (fun n => followsTarget entries run (n + 1))
    (fun n => followsTarget entries run n && decide (run[n]? = some glyph)) rfl]
  · apply mapIdx_congr
    intro i g hg
    rw [adjacent_before_eq, replace_build]
    by_cases ht : g ∈ entries.map Prod.fst
    · simp only [followsTarget, hg, Option.any_some, List.contains_iff_mem.mpr ht, Bool.true_and,
        decide_eq_true_eq]
    · simp [lookup_eq_none_of_not_mem ht]
  · intro n g hg
    have hf : followsTarget entries run (n + 1) = (entries.map Prod.fst).contains g := by
      rw [followsTarget, hg, Option.any_some]
    rw [reaction_before, beq_eq_decide_getElem? hg, hf]
  · intro n hc
    cases n with
    | zero => simp [followsTarget] at hc
    | succ k => exact ⟨k, rfl, (Bool.and_eq_true_iff.mp hc).1⟩
  · intro n hc
    have hn := of_decide_eq_true (Bool.and_eq_true_iff.mp hc).2
    exact (List.getElem?_eq_some_iff.mp hn).1

end StateTable

end Metamorphosis
