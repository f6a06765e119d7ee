import JsPrune.Cut
import JsPrune.Json.Quoted
import JsPrune.SourceMap.Vlq
import JsPrune.Text.Position
/-!
# Source maps of a cut

A source map leads from positions of the output back to positions of the source.  In a cut every
segment is copied as it is, so it takes one mapping where a segment starts and one for each further
line that starts inside it.

The written form is version 3 of the format, with a single source and without its content.
-/

namespace JsPrune

structure Mapping where
  generated : Position
  original : Position
  deriving DecidableEq, Repr

structure SourceMap where
  sourceName : String
  mappings : List Mapping
  deriving DecidableEq, Repr

namespace Segment

/-- Whether a line of `output` ends with the byte at offset `i`, for a segment that starts at
`first`.  A line feed that a cut moved behind a carriage return ends the line of that one. -/
def endsLineAt (output : String) (first i : Nat) : Bool :=
  match Text.byte? output i with
  | some 0x0A => !(i == first && 0 < i && Text.byte? output (i - 1) == some 0x0D)
  | some 0x0D => Text.byte? output (i + 1) != some 0x0A
  | _ => false

/-- The offsets in output and source that get a mapping on behalf of one segment: its start, and
the start of every further line that it holds a part of. -/
def anchors (output : String) (segment : Segment) : List (Nat × Nat) :=
  let stop := min (segment.generated + segment.length) output.utf8ByteSize
  let lines := (List.range' segment.generated (stop - segment.generated)).filterMap fun i =>
    if endsLineAt output segment.generated i && i + 1 < stop then
      some (i + 1, segment.original + (i + 1 - segment.generated))
    else none
  (segment.generated, segment.original) :: lines

end Segment

namespace SourceMap

/-- The offsets in output and source that get a mapping. -/
def anchors (output : String) (segments : List Segment) : List (Nat × Nat) :=
  segments.flatMap (Segment.anchors output)

def insert (mapping : Mapping) : List Mapping → List Mapping
  | [] => [mapping]
  | other :: rest =>
    if mapping.generated.le other.generated then mapping :: other :: rest
    else other :: insert mapping rest

/-- The mappings by their place in the output.  Those of one place keep their order. -/
def sort (mappings : List Mapping) : List Mapping :=
  mappings.foldr insert []

def ofCut (source output sourceName : String) (removed : List Span) : SourceMap :=
  let pairs := anchors output (Segment.kept source.utf8ByteSize removed)
  let generated := Position.ofOffsets output (pairs.map Prod.fst)
  let original := Position.ofOffsets source (pairs.map Prod.snd)
  ⟨sourceName, sort (List.zipWith Mapping.mk generated original)⟩

def delta (new old : Nat) : List Char := Vlq.encode ((new : Int) - (old : Int))

/-- The four numbers of a mapping: column, source, line and column in the source.  The column counts
from `column`, and the only source never changes. -/
def fields (column : Nat) (original : Position) (mapping : Mapping) : List Char :=
  delta mapping.generated.column column ++ delta 0 0 ++
    delta mapping.original.line original.line ++ delta mapping.original.column original.column

/-- The mappings after `previous` in their written form.  A semicolon ends a line, a comma separates
the mappings of one line, and a mapping equal to the one before it is left out. -/
def writeAfter (previous : Mapping) : List Mapping → List Char
  | [] => []
  | mapping :: rest =>
    if mapping = previous then writeAfter previous rest
    else if mapping.generated.line = previous.generated.line then
      ',' :: fields previous.generated.column previous.original mapping ++
        writeAfter mapping rest
    else
      List.replicate (mapping.generated.line - previous.generated.line) ';' ++
        fields 0 previous.original mapping ++ writeAfter mapping rest

def write : List Mapping → List Char
  | [] => []
  | mapping :: rest =>
    List.replicate mapping.generated.line ';' ++ fields 0 .start mapping ++
      writeAfter mapping rest

def render (map : SourceMap) : String :=
  "\x7b\"version\":3,\"sources\":[" ++ Json.Quoted.encode map.sourceName ++
    "],\"names\":[],\"mappings\":\"" ++ String.ofList (write map.mappings) ++ "\"\x7d"

end SourceMap

end JsPrune
