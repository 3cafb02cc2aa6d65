import ServiceLang.Lower.Defect
import ServiceLang.Peg.Match
import ServiceLang.Region.Basic
import ServiceLang.Source.Position

/-!
Errors that end the parsing of a source: it cannot be cut into regions, a text does
not match its grammar, or what matches has no meaning.
-/

namespace ServiceLang

/-- Why a source is not parsed. -/
inductive SyntaxFault where
  | lexical (fault : Region.Fault)
  | mismatch (mismatch : Peg.Mismatch)
  | defect (defect : Defect)

namespace SyntaxFault

def message : SyntaxFault → String
  | lexical fault => fault.message
  | mismatch m => m.message
  | defect d => d.message

/-- The fault shows before any grammar is asked. -/
def isLexical : SyntaxFault → Bool
  | lexical _ => true
  | _ => false

end SyntaxFault

/-- A fault with its position in the source. -/
structure SyntaxError where
  pos : Position
  fault : SyntaxFault

/-- A syntax error on one line. -/
def SyntaxError.display (e : SyntaxError) : String := e.pos.display ++ ": " ++ e.fault.message

end ServiceLang
