import Metamorphosis.Arena
import Metamorphosis.Document
import Metamorphosis.GlyphRule
import Metamorphosis.RuleFile
import Metamorphosis.Verb

namespace Metamorphosis

inductive Level
  | warn
  | debug
  | trace
deriving DecidableEq

namespace Level

def text : Level → String
  | .warn => "WARN"
  | .debug => "DEBUG"
  | .trace => "TRACE"

/-- The greater, the less severe. -/
def rank : Level → Nat
  | .warn => 0
  | .debug => 1
  | .trace => 2

end Level

/-- How many glyph rules of each kind a synthesis starts from. -/
structure RuleCounts where
  after : Nat
  before : Nat
  between : Nat
  when : Nat
  multiPass : Nat
  cleanup : Nat

inductive Event
  | parsed (file : RuleFile)
  | temporary (code : Nat) (key : TempKey)
  | glyphRule (rule : GlyphRule)
  | window (window : Window)
  | contextualExpanded (rules glyphRules temporaries : Nat)
  | reorderExpanded (rules windows : Nat)
  | synthesizing (counts : RuleCounts)
  | dropped (table : String) (target kept replacement : Glyph)
  | ligatureRepeated (ligature : Glyph) (components : List Glyph)
  | sourceRepeated (source : Glyph)
  | subtable (number : Nat) (subtable : Subtable)
  | generated (subtables : Nat) (config : Config) (temporaries : Nat)

def Purpose.text : Purpose → String
  | .decomposed => "Decomposed"
  | .multiPass => "MultiPass"

namespace Event

def level : Event → Level
  | .dropped .. | .ligatureRepeated .. | .sourceRepeated .. => .warn
  | .parsed .. | .contextualExpanded .. | .reorderExpanded .. | .synthesizing .. | .subtable ..
  | .generated .. => .debug
  | .temporary .. | .glyphRule .. | .window .. => .trace

def text : Event → String
  | .parsed file => s!"parsed {file.summary}"
  | .temporary code key =>
    s!"temporary glyph {code} for {key.purpose.text} line {key.line} " ++
    s!"index {key.index} slot {key.slot}"
  | .glyphRule r => s!"line {r.line}: {r.text}"
  | .window w => s!"line {w.line}: {w.text}"
  | .contextualExpanded rules glyphRules temporaries =>
    s!"expanded {rules} contextual rules into {glyphRules} glyph-level rules " ++
    s!"({temporaries} temporary glyphs)"
  | .reorderExpanded rules windows =>
    s!"expanded {rules} reorder rules into {windows} glyph windows"
  | .synthesizing counts =>
    s!"synthesizing {counts.after} after, {counts.before} before, {counts.between} between, " ++
    s!"{counts.when} when, {counts.multiPass} multi-pass, {counts.cleanup} cleanup rules"
  | .dropped table target kept replacement =>
    s!"{table}: '{target}' already maps to '{kept}', dropping '{replacement}'"
  | .ligatureRepeated ligature components =>
    s!"ligature {ligature}: components " ++ " + ".intercalate components ++
    " already form a ligature"
  | .sourceRepeated source =>
    s!"one-to-many: '{source}' already decomposes, dropping a later rule"
  | .subtable number s => s!"subtable {number}: {s.body.keyword} ({s.description})"
  | .generated subtables config temporaries =>
    s!"generated {subtables} subtables for {config.text} ({temporaries} temporary glyphs)"

end Event

end Metamorphosis
