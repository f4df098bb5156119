import Metamorphosis.Proofs.StateTable.Rearrangement
import Metamorphosis.Proofs.Window.Expansion

namespace Metamorphosis

open CompileM

section Windows

variable {registry : Registry} {rule : ReorderRule} {windows : List Window} {s s' : Session}

theorem detect_of_windows (h : exec (rule.windows registry) s = (.ok windows, s')) :
    ∀ w ∈ windows, Verb.detect w.before w.after = .ok w.verb := by
  obtain ⟨before, after, size, _, hall⟩ := ReorderRule.windows_ok_iff.mp (congrArg Prod.fst h)
  intro w hw
  obtain ⟨k, _, verb, hverb, rfl⟩ := forall₂_of_mem_right hall w hw
  exact hverb

theorem windows_length (h : exec (rule.windows registry) s = (.ok windows, s')) :
    ∀ w ∈ windows, 2 ≤ w.before.length :=
  fun w hw => (Verb.length_of_detect (detect_of_windows h w hw)).1

theorem windows_nodup (h : exec (rule.windows registry) s = (.ok windows, s')) :
    ∀ w ∈ windows, w.before.Nodup :=
  fun w hw => (Verb.detect_ok_iff.mp (detect_of_windows h w hw)).2.1

end Windows

open StateTable in
/-- Over any run, the table of a window changes no glyph and takes the transition that rearranges
exactly where the window ends. It then performs the verb of the window, and the glyph that it has
last marked as first is the first one of the window. -/
theorem rearrangement_recognises_window {registry : Registry} {rule : ReorderRule}
    {windows : List Window} {s s' : Session}
    (h : exec (rule.windows registry) s = (.ok windows, s')) {w : Window} (hw : w ∈ windows)
    (run : List Glyph) :
    (rearrangement w).run run = run ∧
    ∀ i,
      ((rearrangement w).Takes run i "Rearrange" ↔
        ∃ first, first + w.before.length = i + 1 ∧ w.before <+: run.drop first) ∧
      ((rearrangement w).Takes run i "Rearrange" →
        (rearrangement w).Acts run i (.rearrange w.verb) ∧
        ∃ first, first + w.before.length = i + 1 ∧
          (rearrangement w).LastActs run i .markFirst first) := by
  have hnodup := windows_nodup h w hw
  have hlength := windows_length h w hw
  refine ⟨run_of_no_substitutions build_substitutions run, fun i => ?_⟩
  refine ⟨takes_rearrange_iff hnodup hlength, fun htakes => ?_⟩
  refine ⟨acts_rearrange hnodup hlength htakes, ?_⟩
  obtain ⟨first, hfirst, hstands⟩ := (takes_rearrange_iff hnodup hlength).mp htakes
  exact ⟨first, hfirst, lastActs_markFirst hnodup hlength hfirst hstands⟩

/-- A rule on classes with two glyphs each. -/
def swappedPairs : ReorderRule :=
  ⟨[.classRef "vowels", .classRef "marks"], [.classRef "marks", .classRef "vowels"], 1⟩

def vowelsAndMarks : Registry :=
  ⟨[⟨"vowels", ["a", "e"]⟩, ⟨"marks", ["m", "n"]⟩], by decide, by decide⟩

open StateTable in
/-- The window of the second glyphs ends twice in the run, first after a beginning that goes
nowhere. -/
theorem rearrangement_recognises_window_pairs :
    ∃ windows s' w,
      exec (swappedPairs.windows vowelsAndMarks) (Session.fresh defaultTempBase) =
        (.ok windows, s') ∧
      w ∈ windows ∧ w.before = ["e", "n"] ∧
      (rearrangement w).Takes ["e", "e", "n", "a", "n", "e", "n"] 2 "Rearrange" ∧
      (rearrangement w).LastActs ["e", "e", "n", "a", "n", "e", "n"] 6 .markFirst 5 := by
  have hwindows : ∃ windows s' w,
      exec (swappedPairs.windows vowelsAndMarks) (Session.fresh defaultTempBase) =
        (.ok windows, s') ∧
      w ∈ windows ∧ w.before = ["e", "n"] :=
    ⟨_, _, _, rfl, List.mem_cons_of_mem _ List.mem_cons_self, rfl⟩
  obtain ⟨windows, s', w, hexec, hw, hbefore⟩ := hwindows
  obtain ⟨_, hall⟩ := rearrangement_recognises_window hexec hw ["e", "e", "n", "a", "n", "e", "n"]
  rw [hbefore] at hall
  have htwo := (hall 2).1.mpr ⟨1, rfl, by decide⟩
  have hsix := (hall 6).1.mpr ⟨5, rfl, by decide⟩
  obtain ⟨_, first, hfirst, hlast⟩ := (hall 6).2 hsix
  obtain rfl : first = 5 := Nat.add_right_cancel hfirst
  exact ⟨windows, s', w, hexec, hw, hbefore, htwo, hlast⟩

end Metamorphosis
