import Metamorphosis.Proofs.Document.Tables
import Metamorphosis.Proofs.RuleGroup.Passes
import Metamorphosis.Proofs.RuleGroup.Shape
import Metamorphosis.Proofs.StateTable.Closed

namespace Metamorphosis

open CompileM

theorem RuleGroup.HasTable.closed {group : RuleGroup} {table : StateTable}
    (h : group.HasTable table) : table.Closed := by
  cases h with
  | adjacent side glyph rules => exact StateTable.adjacent_closed side
  | chain hlength =>
    have htwo := (chainLength_eq_ok.mp hlength).1
    exact StateTable.chain_closed (by omega) _ _ _
  | between rules => exact StateTable.between_closed _ _ _
  | betweenChain hn hm hshared => exact StateTable.betweenChain_closed hn hm _ _
  | whole hshape =>
    have htwo := two_le_of_commonShape hshape
    exact StateTable.whole_closed (by omega) _ _ _
  | marking hmarks => exact StateTable.marking_closed _ _ _

theorem allSubtables_closed {rules : List GlyphRule} {made : List Subtable} {s s' : Session}
    (h : exec (GlyphRule.allSubtables rules) s = (.ok made, s')) :
    ∀ sub ∈ made, ∀ table, sub.body.stateTable? = some table → table.Closed := by
  intro sub hsub table htable
  obtain ⟨group, _, hgroup⟩ := allSubtables_hasTable h sub hsub table htable
  exact hgroup.closed

theorem compile_closed {file : RuleFile} {config : Config} {document : Document} {s s' : Session}
    (h : exec (file.compile config) s = (.ok document, s')) :
    ∀ sub ∈ document.subtables, ∀ table, sub.body.stateTable? = some table → table.Closed := by
  obtain ⟨rules, made, m, m', _, hmade, htables⟩ :=
    compile_forall_tables (fun _ hlength => StateTable.rearrangement_closed hlength) h
  exact htables.mpr (allSubtables_closed hmade)

/-- The tables of rule files and of lists of glyph rules are closed, in any session. -/
theorem compiled_tables_closed :
    (∀ (file : RuleFile) (config : Config) (s s' : Session) (document : Document),
      exec (file.compile config) s = (.ok document, s') →
        ∀ sub ∈ document.subtables, ∀ table, sub.body.stateTable? = some table → table.Closed) ∧
    (∀ (rules : List GlyphRule) (s s' : Session) (made : List Subtable),
      exec (GlyphRule.allSubtables rules) s = (.ok made, s') →
        ∀ sub ∈ made, ∀ table, sub.body.stateTable? = some table → table.Closed) :=
  ⟨fun _ _ _ _ _ h => compile_closed h, fun _ _ _ _ h => allSubtables_closed h⟩

/-- Contexts that hold their own target, a chain, sides of two and one glyphs, several passes and a
window. -/
def mixedFile : RuleFile where
  contextual :=
    [⟨.after [.glyph "a"], [⟨.glyph "a", .glyph "x", none⟩], 1⟩,
      ⟨.before [.glyph "b", .glyph "c"], [⟨.glyph "a", .glyph "x", none⟩], 2⟩,
      ⟨.between [.glyph "a"] [.glyph "a"], [⟨.glyph "a", .glyph "y", none⟩], 3⟩,
      ⟨.between [.glyph "a", .glyph "b"] [.glyph "c"], [⟨.glyph "d", .glyph "y", none⟩], 4⟩,
      ⟨.when [.glyph "a", .glyph "b"],
        [⟨.glyph "a", .glyph "x", none⟩, ⟨.glyph "b", .glyph "y", none⟩], 5⟩]
  reorder := [⟨[.glyph "p", .glyph "q", .glyph "r"], [.glyph "r", .glyph "p", .glyph "q"], 6⟩]

/-- A file with six tables, and a rule for a whole pattern, which no file has. -/
theorem compiled_tables_closed_mixed :
    (∃ document s,
      exec (mixedFile.compile { feature := "Mixed" }) (Session.fresh defaultTempBase) =
        (.ok document, s) ∧
      (document.subtables.filterMap fun sub => sub.body.stateTable?).length = 6 ∧
      ∀ sub ∈ document.subtables, ∀ table, sub.body.stateTable? = some table → table.Closed) ∧
    ∃ made s,
      exec (GlyphRule.allSubtables [.single (.when ["a", "b", "a"]) "b" "x" 1])
        (Session.fresh defaultTempBase) = (.ok made, s) ∧
      (made.filterMap fun sub => sub.body.stateTable?).length = 1 ∧
      ∀ sub ∈ made, ∀ table, sub.body.stateTable? = some table → table.Closed := by
  have hfile : ∃ document s,
      exec (mixedFile.compile { feature := "Mixed" }) (Session.fresh defaultTempBase) =
        (.ok document, s) ∧
      (document.subtables.filterMap fun sub => sub.body.stateTable?).length = 6 :=
    ⟨_, _, rfl, by decide⟩
  have hwhole : ∃ made s,
      exec (GlyphRule.allSubtables [.single (.when ["a", "b", "a"]) "b" "x" 1])
        (Session.fresh defaultTempBase) = (.ok made, s) ∧
      (made.filterMap fun sub => sub.body.stateTable?).length = 1 := ⟨_, _, rfl, by decide⟩
  obtain ⟨document, s, hdocument, hsix⟩ := hfile
  obtain ⟨made, s', hmade, hone⟩ := hwhole
  exact ⟨⟨document, s, hdocument, hsix, compiled_tables_closed.1 _ _ _ _ _ hdocument⟩,
    ⟨made, s', hmade, hone, compiled_tables_closed.2 _ _ _ _ hmade⟩⟩

end Metamorphosis
