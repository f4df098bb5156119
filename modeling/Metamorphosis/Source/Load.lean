import Metamorphosis.Event
import Metamorphosis.Source.Diagnostic
import Metamorphosis.Source.Directive

namespace Metamorphosis

/-- Why no rule file was loaded. -/
inductive LoadError
  | noFile (path : String)
  | notText
  | notRules (error : SyntaxError)
  | unusableName (use : GlyphUse)
deriving DecidableEq

def LoadError.message : LoadError → String
  | .noFile path => s!"rule file not found: {path}"
  | .notText => "stream did not contain valid UTF-8"
  | .notRules error => error.message
  | .unusableName ⟨name, some line⟩ => s!"invalid glyph name '{name}' at line {line}"
  | .unusableName ⟨name, none⟩ => s!"invalid glyph name '{name}'"

namespace RuleFile

/-- The rule file a text stands for. Glyph names are not looked at. -/
def parse (source : String) : Except SyntaxError RuleFile :=
  match readRuleFile source.toList with
  | .ok file => .ok file
  | .error failure => .error ⟨source.toList, failure⟩

/-- Whether every glyph name is usable, or the first that is not. -/
def checkNames (file : RuleFile) : Except LoadError Unit :=
  match file.unusableName? with
  | some use => .error (.unusableName use)
  | none => .ok ()

/-- The rule file a text stands for, if its glyph names are usable. -/
def load (source : String) : Except LoadError RuleFile := do
  match parse source with
  | .error e => throw (.notRules e)
  | .ok file =>
    checkNames file
    return file

/-- The rule file in a file at a path, given the bytes there, if there are any. -/
def loadFile (path : String) (bytes : Option ByteArray) : Except LoadError RuleFile :=
  match bytes with
  | none => throw (.noFile path)
  | some bytes =>
    match String.fromUTF8? bytes with
    | none => throw .notText
    | some source => load source

/-- What is reported of a rule file when it is loaded. -/
def loadEvents : Except LoadError RuleFile → List Event
  | .ok file => [.parsed file]
  | .error _ => []

end RuleFile

end Metamorphosis
