import Metamorphosis.Proofs.StateTable.Adjacent
import Metamorphosis.Proofs.StateTable.Between

namespace Metamorphosis

/-- The glyph beside an index of a run, on the side where a context of this kind stands. -/
def contextAt? (side : Side) (run : List Glyph) (i : Nat) : Option Glyph :=
  match side with
  | .after => if i = 0 then none else run[i - 1]?
  | .before => run[i + 1]?

theorem contextAt?_after {run : List Glyph} {i : Nat} {glyph : Glyph} :
    contextAt? .after run i = some glyph ↔ 0 < i ∧ run[i - 1]? = some glyph := by
  cases i with
  | zero => simp [contextAt?]
  | succ k => simp [contextAt?]

namespace StateTable

/-- A run gives the targets beside the context glyph their replacements. -/
theorem run_adjacent (side : Side) (glyph : Glyph) (entries : List (Glyph × Glyph))
    (run : List Glyph) :
    (adjacent side glyph entries).run run = run.mapIdx fun i g =>
      if contextAt? side run i = some glyph then (entries.lookup g).getD g else g := by
  cases side with
  | after =>
    rw [run_after]
    simp only [contextAt?_after]
  | before => exact run_before run

end StateTable

/-- The subtable of rules with one glyph next to their targets gives every target that has it beside
itself its first replacement and keeps all other glyphs, all of it read in the run as it was. -/
theorem adjacent_rewrites_beside (side : Side) (glyph : Glyph) (rules : List GlyphRule)
    (s : Session) :
    ∃ table s', (RuleGroup.adjacent side glyph rules).subtables.exec s =
        (.ok [⟨side.text ++ " " ++ glyph, .contextual table⟩], s') ∧
      ∀ run : List Glyph, (table.run run).length = run.length ∧
        ∀ i g, run[i]? = some g →
          (IsTarget rules g ∧ contextAt? side run i = some glyph → ∃ replacement,
            (substitutions rules).lookup g = some replacement ∧
              (table.run run)[i]? = some replacement) ∧
          (¬(IsTarget rules g ∧ contextAt? side run i = some glyph) →
            (table.run run)[i]? = some g) := by
  refine ⟨_, _, rfl, ?_⟩
  intro run
  refine ⟨StateTable.length_run _ run, ?_⟩
  intro i g hg
  rw [StateTable.run_adjacent, List.getElem?_mapIdx, hg, Option.map_some, Merged.entries_ofPairs,
    lookup_firstReplacements]
  constructor
  · rintro ⟨htarget, hcontext⟩
    obtain ⟨replacement, hr⟩ := exists_lookup_of_mem (mem_keys_substitutions.mpr htarget)
    exact ⟨replacement, hr, by rw [if_pos hcontext, hr, Option.getD_some]⟩
  · intro hnot
    by_cases hcontext : contextAt? side run i = some glyph
    · have htarget : g ∉ (substitutions rules).map Prod.fst :=
        fun hmem => hnot ⟨mem_keys_substitutions.mp hmem, hcontext⟩
      rw [if_pos hcontext, lookup_eq_none_of_not_mem htarget, Option.getD_none]
    · rw [if_neg hcontext]

-- where the context glyph is a target, all but one of them in a row are rewritten
example : (StateTable.adjacent .after "c" [("c", "x")]).run ["c", "c", "c"] = ["c", "x", "x"] := by
  decide

example : (StateTable.adjacent .before "c" [("c", "x")]).run ["c", "c", "c"] = ["x", "x", "c"] := by
  decide

end Metamorphosis
