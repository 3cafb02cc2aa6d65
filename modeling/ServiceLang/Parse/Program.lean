import ServiceLang.Lower.Endpoint
import ServiceLang.Lower.Flow
import ServiceLang.Lower.Program
import ServiceLang.Parse.Error
import ServiceLang.Region.Cut
import ServiceLang.Source.LineMap

/-!
Parsing a source.

The source is cut into main text and regions.  The main text is parsed first, then
each region by its grammar; the first failure ends it all.  Statements of the main
text and flows are merged in the order of their offsets, and the endpoints follow
in the order of the source.
-/

namespace ServiceLang

namespace Source

def errorAt (s : Source) (fault : Located SyntaxFault) : SyntaxError :=
  ⟨s.position fault.offset, fault.cause⟩

/-- Parses a part of the source that starts at `base`, and lowers its trees. -/
def parsePart {R α : Type} [DecidableEq R] (s : Source) (g : Peg.Grammar R) (root : R)
    (lower : (Nat → Position) → List (Peg.ParseTree R) → Lowered α) (base : Nat)
    (text : List Char) : Except SyntaxError α :=
  match g.parse root text with
  | .error m => .error (s.errorAt ((m.map .mismatch).shift base))
  | .ok trees =>
    match lower (fun offset => s.position (base + offset)) trees with
    | .error d => .error (s.errorAt ((d.map .defect).shift base))
    | .ok a => .ok a

def parseMain (s : Source) (text : List Char) : Except SyntaxError (List Stmt) :=
  s.parsePart MainGrammar.grammar .program MainGrammar.lowerProgram 0 text

def parseRegion (s : Source) (r : Region) : Except SyntaxError Stmt :=
  match r.kind with
  | .endpoint =>
    (s.parsePart EndpointGrammar.grammar .endpointFile EndpointGrammar.lowerRegion r.start
      (r.text s.text)).map .endpoint
  | .flow =>
    s.parsePart FlowGrammar.grammar .workflowFile FlowGrammar.lowerRegion r.start (r.text s.text)

def isEndpoint : Stmt → Bool
  | .endpoint _ => true
  | _ => false

/-- Statements of main text and regions in the order of the program. -/
def mergeStatements (main regions : List Stmt) : List Stmt :=
  (main ++ regions.filter (!isEndpoint ·)).mergeSort (fun a b => a.pos.offset ≤ b.pos.offset) ++
    regions.filter isEndpoint

def parse (s : Source) : Except SyntaxError Program :=
  match Region.cut s.text with
  | .error f => .error (s.errorAt (f.map .lexical))
  | .ok ⟨mainText, regions⟩ =>
    match s.parseMain mainText with
    | .error e => .error e
    | .ok main =>
      match regions.mapM s.parseRegion with
      | .error e => .error e
      | .ok declared => .ok ⟨s.position 0, mergeStatements main declared⟩

end Source

end ServiceLang
