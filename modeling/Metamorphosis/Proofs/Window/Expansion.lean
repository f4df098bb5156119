import Metamorphosis.Proofs.GlyphRule.Split
import Metamorphosis.Proofs.Verb
import Metamorphosis.SideBySide

namespace Metamorphosis

open CompileM

namespace ReorderRule

variable {registry : Registry} {rule : ReorderRule} {before after : List (List Glyph)} {n : Nat}
  {windows : List Window} {s : Session}

/-- No position is uneven exactly if both sides have the same sizes. -/
theorem unevenPosition?_eq_none_iff {xs ys : List Element} (hx : before.length = xs.length)
    (hy : after.length = ys.length) (hcount : before.length = after.length) :
    unevenPosition? (xs.zip before) (ys.zip after) = none ↔
      before.map List.length = after.map List.length := by
  unfold unevenPosition?
  rw [List.findSome?_eq_none_iff]
  constructor
  · intro h
    refine List.ext_getElem (by simp [hcount]) fun i hb ha => ?_
    rw [List.length_map] at hb ha
    have hentry : (((xs[i], before[i]), (ys[i], after[i])), i) ∈
        ((xs.zip before).zip (ys.zip after)).zipIdx := by
      rw [List.mem_zipIdx_iff_getElem?, List.getElem?_zip_eq_some, List.getElem?_zip_eq_some,
        List.getElem?_zip_eq_some]
      exact ⟨⟨List.getElem?_eq_getElem (by omega), List.getElem?_eq_getElem hb⟩,
        List.getElem?_eq_getElem (by omega), List.getElem?_eq_getElem ha⟩
    have heven := h _ hentry
    rw [List.getElem_map, List.getElem_map]
    by_contra hne
    simp [hne] at heven
  · intro h entry hentry
    obtain ⟨⟨⟨x, b⟩, ⟨y, a⟩⟩, i⟩ := entry
    rw [List.mem_zipIdx_iff_getElem?, List.getElem?_zip_eq_some, List.getElem?_zip_eq_some,
      List.getElem?_zip_eq_some] at hentry
    obtain ⟨⟨_, hb⟩, _, ha⟩ := hentry
    have hsize := congrArg (fun sizes => sizes[i]?) h
    simp only [List.getElem?_map, hb, ha, Option.map_some, Option.some.injEq] at hsize
    exact if_pos hsize

/-- Along the first side and across the sides, all sizes are compared. -/
theorem sizes_eq_iff (hcount : before.length = after.length) :
    (before.map List.length = after.map List.length ∧ ∀ position ∈ before, position.length = n) ↔
      ∀ position ∈ before ++ after, position.length = n := by
  have hreplicate : ∀ lists : List (List Glyph), (∀ position ∈ lists, position.length = n) ↔
      lists.map List.length = List.replicate lists.length n := by
    intro lists
    rw [List.eq_replicate_iff]
    simp
  rw [List.forall_mem_append, hreplicate, hreplicate]
  constructor
  · intro h
    obtain ⟨hsame, hbefore⟩ := h
    exact ⟨hbefore, by rw [← hsame, hbefore, hcount]⟩
  · intro h
    obtain ⟨hbefore, hafter⟩ := h
    exact ⟨by rw [hbefore, hafter, hcount], hbefore⟩

theorem positions_ok_iff : rule.positions registry = .ok (before, after, n) ↔
    rule.before.length = rule.after.length ∧ 2 ≤ rule.before.length ∧ rule.before.length ≤ 4 ∧
      registry.positionsOf rule.before = .ok before ∧
      registry.positionsOf rule.after = .ok after ∧
      (∀ position ∈ before ++ after, position.length = n) ∧ n ≤ maxWindows := by
  unfold positions
  dsimp only
  rw [except_guard_ok_iff, except_guard_ok_iff, except_bind_ok_iff, not_not, not_or, Nat.not_lt,
    Nat.not_lt, and_assoc]
  refine and_congr_right fun hcount => and_congr_right fun htwo => and_congr_right fun _ => ?_
  have hne : rule.before ≠ [] := List.length_pos_iff.mp (by omega)
  simp only [except_bind_ok_iff]
  constructor
  · intro h
    obtain ⟨b, hb, a, ha, h⟩ := h
    have hx := length_of_mapM_ok hb
    have hy := length_of_mapM_ok ha
    split at h
    next => cases h
    next huneven =>
      split at h
      next => cases h
      next size hsize =>
        obtain ⟨hfew, h⟩ := except_guard_ok_iff.mp h
        cases h
        have heven := (unevenPosition?_eq_none_iff hx hy (by omega)).mp huneven
        have hfirst := (ContextualRule.commonSize_zip_ok_iff hx hne).mp hsize
        exact ⟨hb, ha, (sizes_eq_iff (by omega)).mp ⟨heven, hfirst⟩, Nat.not_lt.mp hfew⟩
  · intro h
    obtain ⟨hb, ha, hsizes, hfew⟩ := h
    have hx := length_of_mapM_ok hb
    have hy := length_of_mapM_ok ha
    obtain ⟨heven, hfirst⟩ := (sizes_eq_iff (by omega)).mpr hsizes
    refine ⟨before, hb, after, ha, ?_⟩
    rw [(unevenPosition?_eq_none_iff hx hy (by omega)).mpr heven,
      (ContextualRule.commonSize_zip_ok_iff hx hne).mpr hfirst]
    exact except_guard_ok_iff.mpr ⟨Nat.not_lt.mpr hfew, rfl⟩

/-- The window at a place of the two sides. -/
def windowAt (line : Nat) (before after : List (List Glyph)) (k : Nat) (verb : Verb) : Window :=
  ⟨column before k, column after k, verb, line⟩

theorem windows_ok_iff : (exec (rule.windows registry) s).1 = .ok windows ↔
    ∃ before after n, rule.positions registry = .ok (before, after, n) ∧
      List.Forall₂ (fun k w => ∃ verb, Verb.detect (column before k) (column after k) = .ok verb ∧
        windowAt rule.line before after k verb = w) (List.range n) windows := by
  constructor
  · intro h
    obtain ⟨⟨before, after, n⟩, m, hpositions, h⟩ := exec_bind_ok (Prod.ext h rfl)
    refine ⟨before, after, n, (exec_atLine_inv hpositions).1, ?_⟩
    refine (exec_mapM_forall₂ h).imp fun k w hw => ?_
    obtain ⟨s₁, s₂, hw⟩ := hw
    obtain ⟨verb, m₁, hverb, hw⟩ := exec_bind_ok hw
    obtain ⟨_, m₂, _, hw⟩ := exec_bind_ok hw
    exact ⟨verb, (exec_atLine_inv hverb).1, exec_pure_ok hw⟩
  · intro h
    obtain ⟨before, after, n, hpositions, hall⟩ := h
    have hreturns : Returns (rule.windows registry) windows := by
      refine Returns.bind (a := (before, after, n)) ?_ (Returns.mapM (hall.imp fun k w hw => ?_))
      · rw [hpositions]
        exact fun s => ⟨s, exec_atLine_ok _ _ s⟩
      · obtain ⟨verb, hverb, rfl⟩ := hw
        rw [hverb]
        exact Returns.bind (fun s => ⟨s, exec_atLine_ok _ _ s⟩)
          (Returns.bind (Returns.report _) (Returns.pure _))
    obtain ⟨s', hs'⟩ := hreturns s
    rw [hs']

theorem exists_positions_iff :
    (∃ before after, rule.positions registry = .ok (before, after, n)) ↔
      rule.before.length = rule.after.length ∧ 2 ≤ rule.before.length ∧ rule.before.length ≤ 4 ∧
        (∀ e ∈ rule.before ++ rule.after, registry.HasSize n e) ∧ n ≤ maxWindows := by
  simp only [positions_ok_iff, List.forall_mem_append]
  constructor
  · intro h
    obtain ⟨before, after, hcount, htwo, hfour, hb, ha, ⟨hbefore, hafter⟩, hfew⟩ := h
    exact ⟨hcount, htwo, hfour, ⟨(Registry.forall_positionsOf_iff hb).mpr hbefore,
      (Registry.forall_positionsOf_iff ha).mpr hafter⟩, hfew⟩
  · intro h
    obtain ⟨hcount, htwo, hfour, ⟨hbefore, hafter⟩, hfew⟩ := h
    obtain ⟨before, hb, hbefore⟩ := Registry.exists_positionsOf_forall_iff.mpr hbefore
    obtain ⟨after, ha, hafter⟩ := Registry.exists_positionsOf_forall_iff.mpr hafter
    exact ⟨before, after, hcount, htwo, hfour, hb, ha, ⟨hbefore, hafter⟩, hfew⟩

/-- At a place below the common size, the columns are what the two sides pick. -/
theorem picks_iff_eq_columns (h : rule.positions registry = .ok (before, after, n)) {k : Nat}
    (hk : k < n) {b a : List Glyph} :
    registry.Picks k rule.before b ∧ registry.Picks k rule.after a ↔
      b = column before k ∧ a = column after k := by
  obtain ⟨_, _, _, hbefore, hafter, hsizes, _⟩ := positions_ok_iff.mp h
  rw [List.forall_mem_append] at hsizes
  rw [Registry.picks_iff_eq_column hbefore hsizes.1 hk,
    Registry.picks_iff_eq_column hafter hsizes.2 hk]

end ReorderRule

/-- A reorder rule has windows exactly if its sides have the same number of elements, from two to
four, that all stand for equally many glyphs, at most a hundred, and every place of these has a
verb. It then has one window for each place, with the glyphs of both sides there; they are the same
glyphs, none of them twice. -/
theorem windows_take_columns (registry : Registry) (rule : ReorderRule) (s : Session) :
    ((∃ windows, (exec (rule.windows registry) s).1 = .ok windows) ↔
      rule.before.length = rule.after.length ∧ 2 ≤ rule.before.length ∧ rule.before.length ≤ 4 ∧
        (∀ e ∈ rule.before ++ rule.after, ¬registry.Lacks e) ∧
        ∃ n ≤ 100, (∀ e ∈ rule.before ++ rule.after, registry.HasSize n e) ∧
          ∀ i < n, ∃ before after verb, registry.Picks i rule.before before ∧
            registry.Picks i rule.after after ∧ Verb.detect before after = .ok verb) ∧
    ∀ windows, (exec (rule.windows registry) s).1 = .ok windows →
      (∀ e ∈ rule.before ++ rule.after, registry.HasSize windows.length e) ∧
      ∀ i < windows.length, ∃ w, windows[i]? = some w ∧ w.line = rule.line ∧
        registry.Picks i rule.before w.before ∧ registry.Picks i rule.after w.after ∧
        Verb.detect w.before w.after = .ok w.verb ∧ w.after.Perm w.before ∧ w.before.Nodup := by
  simp only [ReorderRule.windows_ok_iff]
  refine ⟨⟨?_, ?_⟩, ?_⟩
  · intro h
    obtain ⟨windows, before, after, n, hpositions, hall⟩ := h
    obtain ⟨hcount, htwo, hfour, hsizes, hfew⟩ :=
      ReorderRule.exists_positions_iff.mp ⟨before, after, hpositions⟩
    refine ⟨hcount, htwo, hfour, fun e he => Registry.not_lacks_of_hasSize (hsizes e he), n, hfew,
      hsizes, fun i hi => ?_⟩
    obtain ⟨_, _, verb, hverb, _⟩ := forall₂_of_mem_left hall i (List.mem_range.mpr hi)
    obtain ⟨hb, ha⟩ := (ReorderRule.picks_iff_eq_columns hpositions hi).mpr ⟨rfl, rfl⟩
    exact ⟨_, _, verb, hb, ha, hverb⟩
  · intro h
    obtain ⟨hcount, htwo, hfour, _, n, hfew, hsizes, hverbs⟩ := h
    obtain ⟨before, after, hpositions⟩ :=
      ReorderRule.exists_positions_iff.mpr ⟨hcount, htwo, hfour, hsizes, hfew⟩
    have hwindow : ∀ k ∈ List.range n, ∃ w, ∃ verb,
        Verb.detect (column before k) (column after k) = .ok verb ∧
          ReorderRule.windowAt rule.line before after k verb = w := by
      intro k hk
      obtain ⟨b, a, verb, hb, ha, hverb⟩ := hverbs k (List.mem_range.mp hk)
      obtain ⟨rfl, rfl⟩ :=
        (ReorderRule.picks_iff_eq_columns hpositions (List.mem_range.mp hk)).mp ⟨hb, ha⟩
      exact ⟨_, verb, hverb, rfl⟩
    obtain ⟨windows, hall⟩ := exists_forall₂_iff.mpr hwindow
    exact ⟨windows, before, after, n, hpositions, hall⟩
  · intro windows h
    obtain ⟨before, after, n, hpositions, hall⟩ := h
    obtain ⟨_, _, _, hsizes, _⟩ := ReorderRule.exists_positions_iff.mp ⟨before, after, hpositions⟩
    have hlength : windows.length = n := by rw [← hall.length_eq, List.length_range]
    rw [hlength]
    refine ⟨hsizes, fun i hi => ?_⟩
    obtain ⟨w, hw, verb, hverb, rfl⟩ :=
      ContextualRule.forall₂_getElem? hall (List.getElem?_range hi)
    obtain ⟨hb, ha⟩ := (ReorderRule.picks_iff_eq_columns hpositions hi).mpr ⟨rfl, rfl⟩
    obtain ⟨hsides, hnodup, moves, hmem, hmoves⟩ := Verb.detect_ok_iff.mp hverb
    have hperm := hmoves.perm_of_supported hmem hsides
    exact ⟨_, hw, rfl, hb, ha, hverb, hperm.symm, hnodup⟩

end Metamorphosis
