import JsPrune.Proofs.Json.Reading
import JsPrune.Proofs.Session.Lifecycle
import JsPrune.Proofs.SourceMap.Decoding
import JsPrune.Proofs.Text.Offsets
/-!
# The text of a source map

The text of a map is a JSON document of four members, whatever the name of the source is, and its
mappings are read back by the rules of the format.
-/

namespace JsPrune

open Json (quoted Reader)
open Json.Quoted (escape)

namespace SourceMap

/-! ## The characters of mappings -/

theorem escape_digit : ∀ k, k < 64 → escape (Vlq.digit k) = [Vlq.digit k] := by
  decide +kernel

theorem escape_of_mem_fields {column : Nat} {original : Position} {mapping : Mapping} {c : Char}
    (hc : c ∈ fields column original mapping) : escape c = [c] := by
  obtain ⟨k, hk, rfl⟩ := exists_digit_of_mem_fields hc
  exact escape_digit k hk

theorem escape_of_mem_line {n column : Nat} {original : Position} {mapping : Mapping}
    {later : List Char} {c : Char} (hlater : c ∈ later → escape c = [c])
    (hc : c ∈ List.replicate n ';' ++ fields column original mapping ++ later) :
    escape c = [c] := by
  rw [List.append_assoc] at hc
  rcases List.mem_append.mp hc with hc | hc
  · rw [List.eq_of_mem_replicate hc]
    rfl
  · rcases List.mem_append.mp hc with hc | hc
    · exact escape_of_mem_fields hc
    · exact hlater hc

theorem escape_of_mem_writeAfter {previous : Mapping} {rest : List Mapping} {c : Char}
    (hc : c ∈ writeAfter previous rest) : escape c = [c] := by
  induction rest generalizing previous with
  | nil => exact absurd hc List.not_mem_nil
  | cons mapping rest ih =>
      rw [writeAfter] at hc
      split at hc
      · exact ih hc
      · split at hc
        · rcases List.mem_cons.mp hc with rfl | hc
          · rfl
          · exact escape_of_mem_line (n := 0) ih hc
        · exact escape_of_mem_line ih hc

theorem escape_of_mem_write {mappings : List Mapping} {c : Char} (hc : c ∈ write mappings) :
    escape c = [c] := by
  cases mappings with
  | nil => exact absurd hc List.not_mem_nil
  | cons mapping rest => exact escape_of_mem_line escape_of_mem_writeAfter hc

theorem flatMap_escape_write (mappings : List Mapping) :
    (write mappings).flatMap escape = write mappings := by
  calc (write mappings).flatMap escape
    _ = (write mappings).flatMap List.singleton :=
      List.flatMap_congr fun c hc => escape_of_mem_write hc
    _ = write mappings := List.flatMap_singleton' _

/-! ## The document -/

theorem quoted_append (s : String) (rest later : List Char) :
    quoted s rest ++ later = quoted s (rest ++ later) := by
  rw [quoted, quoted, List.cons_append, List.append_assoc, List.cons_append]

theorem toList_render (map : SourceMap) :
    map.render.toList =
      '\x7b' :: quoted "version" (':' :: '3' :: ',' :: quoted "sources" (':' :: '[' ::
        quoted map.sourceName (']' :: ',' :: quoted "names" (':' :: '[' :: ']' :: ',' ::
          quoted "mappings" (':' :: quoted (String.ofList (write map.mappings)) ['\x7d']))))) := by
  have hmappings : ∀ rest : List Char, quoted (String.ofList (write map.mappings)) rest =
      '"' :: (write map.mappings ++ '"' :: rest) := by
    intro rest
    rw [quoted, String.toList_ofList, flatMap_escape_write]
  have hname : ∀ rest : List Char, (Json.Quoted.encode map.sourceName).toList ++ rest =
      quoted map.sourceName rest := by
    intro rest
    rw [Json.toList_encode_append]
  have hfirst : ("\x7b\"version\":3,\"sources\":[" : String).toList =
      '\x7b' :: quoted "version" (':' :: '3' :: ',' :: quoted "sources" [':', '[']) := by
    decide
  have hnames : ("],\"names\":[],\"mappings\":\"" : String).toList =
      ']' :: ',' :: quoted "names" (':' :: '[' :: ']' :: ',' :: quoted "mappings" [':', '"']) := by
    decide
  have hlast : ("\"\x7d" : String).toList = ['"', '\x7d'] := by
    decide
  unfold render
  simp only [String.toList_append, String.toList_ofList, hfirst, hnames, hlast, List.cons_append,
    quoted_append, hname, hmappings, List.nil_append]

theorem valueOver_version (inner : Option (Reader Json)) (rest : List Char) :
    Reader.valueOver inner ('3' :: ',' :: rest) = .ok (.number "3", ',' :: rest) := by
  have hnumber : Reader.valueOver inner ('3' :: ',' :: rest) = Reader.number ('3' :: ',' :: rest) :=
    rfl
  have hunsigned : Reader.unsignedNumber ('3' :: ',' :: rest) = .ok ((), ',' :: rest) := rfl
  have hlength : ('3' :: ',' :: rest).length - (',' :: rest).length = 1 := by
    rw [List.length_cons, Nat.add_sub_cancel_left]
  have hread : Reader.number ('3' :: ',' :: rest) =
      (Reader.unsignedNumber ('3' :: ',' :: rest)).bind fun left =>
        .ok (.number (String.ofList (('3' :: ',' :: rest).take
          (('3' :: ',' :: rest).length - left.2.length))), left.2) := rfl
  rw [hnumber, hread, hunsigned]
  dsimp only [Except.bind]
  rw [hlength]
  rfl

def members (sourceName mappings : String) : List (String × Json) :=
  [("version", .number "3"), ("sources", .array [.string sourceName]), ("names", .array []),
    ("mappings", .string mappings)]

/-- The document is read by a reader that may go two levels deep. -/
theorem object_render (inner : Option (Reader Json)) (sourceName mappings : String) :
    Reader.object (Reader.valueOver (some (Reader.valueOver inner)))
        (quoted "version" (':' :: '3' :: ',' :: quoted "sources" (':' :: '[' ::
          quoted sourceName (']' :: ',' :: quoted "names" (':' :: '[' :: ']' :: ',' ::
            quoted "mappings" (':' :: quoted mappings ['\x7d'])))))) =
      .ok (.object (members sourceName mappings), []) := by
  have hsources : ∀ rest, Reader.valueOver (some (Reader.valueOver inner))
      ('[' :: quoted sourceName (']' :: rest)) = .ok (.array [.string sourceName], rest) :=
    fun rest => Reader.array_quoted (Reader.valueOver_quoted _ sourceName (']' :: rest))
  have hnames : ∀ rest, Reader.valueOver (some (Reader.valueOver inner)) ('[' :: ']' :: rest) =
      .ok (.array [], rest) :=
    fun rest => rfl
  have hlength : ∀ text : List Char,
      (',' :: quoted "sources" (':' :: text)).length = text.length + 7 + 4 :=
    fun text => rfl
  apply Reader.object_quoted (valueOver_version _ _)
  rw [hlength, Reader.furtherMembers_quoted (hsources _), Reader.furtherMembers_quoted (hnames _),
    Reader.furtherMembers_quoted (Reader.valueOver_quoted _ mappings ['\x7d'])]
  rfl

theorem ofText_render (map : SourceMap) :
    Json.ofText map.render =
      .ok (.object (members map.sourceName (String.ofList (write map.mappings)))) := by
  have hopen : ∀ cs, Reader.value Json.maxDepth ('\x7b' :: cs) =
      Reader.object (Reader.valueOver (some (Reader.valueOver (some (Reader.value 124))))) cs :=
    fun cs => rfl
  have hskip : ∀ cs, Reader.skipSpace ('\x7b' :: cs) = '\x7b' :: cs := fun cs => rfl
  unfold Json.ofText Json.leading
  rw [toList_render, hskip, hopen, object_render]
  rfl

/-! ## Sizes -/

theorem line_add_column_le {text : String} {offsets : List Nat} {p : Position}
    (h : p ∈ Position.ofOffsets text offsets) : p.line + p.column ≤ text.utf8ByteSize := by
  rw [Position.ofOffsets_eq] at h
  obtain ⟨i, -, rfl⟩ := List.mem_map.mp h
  rw [← Position.ofOffset_eq]
  exact Position.ofOffset_le_size text i

theorem line_add_column_le_of_mem_ofCut {source output sourceName : String} {removed : List Span}
    {mapping : Mapping} (h : mapping ∈ (ofCut source output sourceName removed).mappings) :
    mapping.generated.line + mapping.generated.column ≤ output.utf8ByteSize ∧
      mapping.original.line + mapping.original.column ≤ source.utf8ByteSize := by
  rw [ofCut, mem_sort, ← List.map_uncurry_zip_eq_zipWith] at h
  obtain ⟨⟨generated, original⟩, hpair, rfl⟩ := List.mem_map.mp h
  obtain ⟨hgenerated, horiginal⟩ := List.of_mem_zip hpair
  exact ⟨line_add_column_le hgenerated, line_add_column_le horiginal⟩

end SourceMap

/-- Of a source of less than `2 ^ 32` bytes, all lines and columns in a map fit into 32 bits. -/
theorem Session.lt_two_pow_of_mem_mappings {source sourceName : String} {requests : List Request}
    (hsize : source.utf8ByteSize < 2 ^ 32) {mapping : Mapping}
    (h : mapping ∈ ((new source sourceName).after requests).sourceMap.mappings) :
    mapping.generated.line < 2 ^ 32 ∧ mapping.generated.column < 2 ^ 32 ∧
      mapping.original.line < 2 ^ 32 ∧ mapping.original.column < 2 ^ 32 := by
  have hcode := size_code_after source sourceName requests
  obtain ⟨hgenerated, horiginal⟩ := SourceMap.line_add_column_le_of_mem_ofCut h
  rw [source_after_new] at horiginal
  omega

/-- The text of the map that a session answers with is a document for version 3 of the format, with
the name of the source as it was given, no names and no content.  Its mappings are read back as those
of the map itself, without the ones that are equal to the one before them. -/
theorem Session.renderedMap_reads_back (source sourceName : String) (requests : List Request) :
    ∃ text map mappings,
      ((reached source sourceName requests).answer .renderedMap).1 = .renderedMap text ∧
      ((reached source sourceName requests).answer .sourceMap).1 = .sourceMap map ∧
      Json.ofText text = .ok (.object [("version", .number "3"),
        ("sources", .array [.string sourceName]), ("names", .array []),
        ("mappings", .string mappings)]) ∧
      SourceMap.decode mappings =
        some ((map.mappings.destutter (· ≠ ·)).map SourceMap.Token.ofMapping) := by
  have hname : (reached source sourceName requests).sourceMap.sourceName = sourceName :=
    sourceName_after (new source sourceName) requests
  have hdocument := SourceMap.ofText_render (reached source sourceName requests).sourceMap
  rw [hname] at hdocument
  refine ⟨(reached source sourceName requests).sourceMap.render,
    (reached source sourceName requests).sourceMap,
    String.ofList (SourceMap.write (reached source sourceName requests).sourceMap.mappings),
    rfl, rfl, hdocument, ?_⟩
  apply SourceMap.decode_write_ofCut

end JsPrune
