import JsPrune.SourceMap.Basic
import JsPrune.Proofs.SourceMap.Vlq
import JsPrune.Proofs.Text.Position
import Mathlib.Data.List.Destutter
/-!
# Reading mappings

The mappings of a map are read from left to right: a semicolon starts the next line of the output, a
comma separates the tokens of one line, and each token is one, four or five numbers that count on from
those of the token before it, the column of the output from the start of its line.

What is read of written mappings are the mappings themselves, less those that are equal to the one
before them.
-/

namespace JsPrune.SourceMap

/-- A mapping as it is read: a place of the output, the source with the place there if one is given,
and a name if one is given.  Sources and names are numbers. -/
structure Token where
  generated : Position
  origin : Option (Nat × Position)
  name : Option Nat
  deriving DecidableEq, Repr

/-- The numbers that those of the next token count on from. -/
structure Totals where
  column : Int
  source : Int
  originalLine : Int
  originalColumn : Int
  name : Int
  deriving DecidableEq, Repr

namespace Totals

def zero : Totals := ⟨0, 0, 0, 0, 0⟩

def newLine (t : Totals) : Totals := { t with column := 0 }

def add (t : Totals) : List Int → Option Totals
  | [c] => some { t with column := t.column + c }
  | [c, s, l, k] =>
    some { t with
      column := t.column + c
      source := t.source + s
      originalLine := t.originalLine + l
      originalColumn := t.originalColumn + k }
  | [c, s, l, k, n] =>
    some ⟨t.column + c, t.source + s, t.originalLine + l, t.originalColumn + k, t.name + n⟩
  | _ => none

def token? (t : Totals) (line count : Nat) : Option Token := do
  let generated : Position := ⟨line, ← t.column.toNat?⟩
  if count = 1 then some ⟨generated, none, none⟩
  else do
    let origin := (← t.source.toNat?, ⟨← t.originalLine.toNat?, ← t.originalColumn.toNat?⟩)
    if count = 4 then some ⟨generated, some origin, none⟩
    else some ⟨generated, some origin, some (← t.name.toNat?)⟩

def ofPlace (column : Nat) (original : Position) : Totals :=
  ⟨column, 0, original.line, original.column, 0⟩

end Totals

def decodeSegment (line : Nat) (t : Totals) (digits : List Char) : Option (List Token × Totals) :=
  if digits = [] then some ([], t)
  else do
    let numbers ← Vlq.integers digits
    let t ← t.add numbers
    let token ← t.token? line numbers.length
    some ([token], t)

/-- Reads on where `segment` came last, on the given line. -/
def decodeFrom (line : Nat) (t : Totals) (segment : List Char) : List Char → Option (List Token)
  | [] => (decodeSegment line t segment).map Prod.fst
  | c :: cs =>
    if c = ',' then do
      let (tokens, t) ← decodeSegment line t segment
      (decodeFrom line t [] cs).map (tokens ++ ·)
    else if c = ';' then do
      let (tokens, t) ← decodeSegment line t segment
      (decodeFrom (line + 1) t.newLine [] cs).map (tokens ++ ·)
    else decodeFrom line t (segment ++ [c]) cs

def decode (mappings : String) : Option (List Token) :=
  decodeFrom 0 .zero [] mappings.toList

def Token.ofMapping (mapping : Mapping) : Token :=
  ⟨mapping.generated, some (0, mapping.original), none⟩

/-! ## Separators -/

section

variable {line : Nat} {t t' : Totals} {segment : List Char} {tokens : List Token}

@[simp] theorem decodeSegment_nil : decodeSegment line t [] = some ([], t) := rfl

theorem decodeFrom_nil (h : decodeSegment line t segment = some (tokens, t')) :
    decodeFrom line t segment [] = some tokens := by
  rw [decodeFrom, h]
  rfl

theorem decodeFrom_comma (h : decodeSegment line t segment = some (tokens, t')) (cs : List Char) :
    decodeFrom line t segment (',' :: cs) = (decodeFrom line t' [] cs).map (tokens ++ ·) := by
  rw [decodeFrom, if_pos rfl, h]
  rfl

theorem decodeFrom_semicolon (h : decodeSegment line t segment = some (tokens, t'))
    (cs : List Char) :
    decodeFrom line t segment (';' :: cs) =
      (decodeFrom (line + 1) t'.newLine [] cs).map (tokens ++ ·) := by
  rw [decodeFrom, if_neg (by decide), if_pos rfl, h]
  rfl

theorem decodeFrom_semicolons (n : Nat) (cs : List Char) :
    decodeFrom line t.newLine [] (List.replicate n ';' ++ cs) =
      decodeFrom (line + n) t.newLine [] cs := by
  induction n generalizing line with
  | zero => rfl
  | succ n ih =>
      have hagain : t.newLine.newLine = t.newLine := rfl
      rw [List.replicate_succ, List.cons_append, decodeFrom_semicolon decodeSegment_nil, hagain, ih,
        Nat.add_assoc, Nat.add_comm 1]
      cases decodeFrom (line + (n + 1)) t.newLine [] cs <;> rfl

theorem decodeFrom_append {digits : List Char} (h : ∀ c ∈ digits, c ≠ ',' ∧ c ≠ ';')
    (cs : List Char) :
    decodeFrom line t segment (digits ++ cs) = decodeFrom line t (segment ++ digits) cs := by
  induction digits generalizing segment with
  | nil => rw [List.nil_append, List.append_nil]
  | cons d digits ih =>
      obtain ⟨hcomma, hsemicolon⟩ := h d List.mem_cons_self
      have hrest : decodeFrom line t (segment ++ [d]) (digits ++ cs) =
          decodeFrom line t (segment ++ [d] ++ digits) cs :=
        ih fun c hc => h c (List.mem_cons_of_mem _ hc)
      rw [List.cons_append, decodeFrom, if_neg hcomma, if_neg hsemicolon, hrest, List.append_assoc,
        List.singleton_append]

end

/-! ## Tokens -/

theorem digit_ne_separator : ∀ k, k < 64 → Vlq.digit k ≠ ',' ∧ Vlq.digit k ≠ ';' := by
  decide +kernel

theorem exists_digit_of_mem_fields {column : Nat} {original : Position} {mapping : Mapping}
    {c : Char} (hc : c ∈ fields column original mapping) : ∃ k, k < 64 ∧ c = Vlq.digit k := by
  unfold fields delta at hc
  simp only [List.mem_append] at hc
  rcases hc with ((hc | hc) | hc) | hc <;> exact Vlq.exists_digit_of_mem_encode hc

theorem ne_separator_of_mem_fields {column : Nat} {original : Position} {mapping : Mapping} {c : Char}
    (hc : c ∈ fields column original mapping) : c ≠ ',' ∧ c ≠ ';' := by
  obtain ⟨k, hk, rfl⟩ := exists_digit_of_mem_fields hc
  exact digit_ne_separator k hk

theorem integers_fields (column : Nat) (original : Position) (mapping : Mapping) :
    Vlq.integers (fields column original mapping) =
      some [(mapping.generated.column : Int) - column, 0,
        (mapping.original.line : Int) - original.line,
        (mapping.original.column : Int) - original.column] := by
  have hlast : Vlq.integers (delta mapping.original.column original.column) =
      some [(mapping.original.column : Int) - original.column] := by
    have hread := Vlq.integers_encode_append
      ((mapping.original.column : Int) - original.column) []
    rw [List.append_nil] at hread
    exact hread
  rw [fields, List.append_assoc, List.append_assoc]
  unfold delta at hlast ⊢
  rw [Vlq.integers_encode_append, Vlq.integers_encode_append, Vlq.integers_encode_append, hlast]
  rfl

theorem add_fields (column : Nat) (original : Position) (mapping : Mapping) :
    (Totals.ofPlace column original).add
        [(mapping.generated.column : Int) - column, 0, (mapping.original.line : Int) - original.line,
          (mapping.original.column : Int) - original.column] =
      some (.ofPlace mapping.generated.column mapping.original) := by
  have hcount : ∀ old new : Nat, (old : Int) + ((new : Int) - old) = new := by
    intro old new
    omega
  simp only [Totals.add, Totals.ofPlace, hcount]
  rfl

/-- The token of a mapping is read back, if the mapping counts on from what was read before. -/
theorem decodeSegment_fields (column : Nat) (original : Position) (mapping : Mapping) :
    decodeSegment mapping.generated.line (.ofPlace column original)
        (fields column original mapping) =
      some ([.ofMapping mapping], .ofPlace mapping.generated.column mapping.original) := by
  have hnumbers := integers_fields column original mapping
  have hne : fields column original mapping ≠ [] := by
    intro hnil
    rw [hnil] at hnumbers
    exact absurd hnumbers (by simp [Vlq.integers, Vlq.integersFrom])
  rw [decodeSegment, if_neg hne, hnumbers]
  dsimp only [Option.bind_eq_bind, Option.bind_some]
  rw [add_fields]
  rfl

/-! ## Mappings -/

theorem decodeFrom_fields {line : Nat} {t : Totals} (column : Nat) (original : Position)
    (mapping : Mapping) (cs : List Char) :
    decodeFrom line t [] (fields column original mapping ++ cs) =
      decodeFrom line t (fields column original mapping) cs := by
  rw [decodeFrom_append (fun _ => ne_separator_of_mem_fields), List.nil_append]

theorem decodeFrom_writeAfter {previous : Mapping} {rest : List Mapping} {t : Totals}
    {segment : List Char}
    (hascend : (previous :: rest).IsChain fun a b => a.generated.line ≤ b.generated.line)
    (hsegment : decodeSegment previous.generated.line t segment =
      some ([.ofMapping previous], .ofPlace previous.generated.column previous.original)) :
    decodeFrom previous.generated.line t segment (writeAfter previous rest) =
      some (((previous :: rest).destutter (· ≠ ·)).map Token.ofMapping) := by
  induction rest generalizing previous t segment with
  | nil => exact decodeFrom_nil hsegment
  | cons mapping rest ih =>
      obtain ⟨hle, hrest⟩ := List.isChain_cons_cons.mp hascend
      have hread := fun column original =>
        ih hrest (decodeSegment_fields column original mapping)
      rw [writeAfter]
      split
      · rename_i hrepeat
        rw [hrepeat] at hrest
        rw [hrepeat, ih hrest hsegment, List.destutter_cons_cons, if_neg (by simp)]
        rfl
      · rename_i hnew
        have hdestutter : (previous :: mapping :: rest).destutter (· ≠ ·) =
            previous :: (mapping :: rest).destutter (· ≠ ·) := by
          rw [List.destutter_cons_cons, if_pos (Ne.symm hnew)]
          rfl
        rw [hdestutter]
        split
        · rename_i hsame
          rw [List.cons_append, decodeFrom_comma hsegment, ← hsame, decodeFrom_fields, hread]
          rfl
        · rename_i hlater
          obtain ⟨n, hn⟩ : ∃ n, mapping.generated.line - previous.generated.line = n + 1 :=
            ⟨mapping.generated.line - previous.generated.line - 1, by omega⟩
          have hline : previous.generated.line + 1 + n = mapping.generated.line := by omega
          rw [hn, List.replicate_succ, List.cons_append, List.cons_append, List.append_assoc,
            decodeFrom_semicolon hsegment, decodeFrom_semicolons, hline, decodeFrom_fields]
          have hnext := hread 0 previous.original
          rw [show (Totals.ofPlace previous.generated.column previous.original).newLine =
            .ofPlace 0 previous.original from rfl, hnext]
          rfl

/-- Reading written mappings gives these mappings, without those that are equal to the one before
them, if their lines ascend. -/
theorem decode_write {mappings : List Mapping}
    (hascend : mappings.IsChain fun a b => a.generated.line ≤ b.generated.line) :
    decode (String.ofList (write mappings)) =
      some ((mappings.destutter (· ≠ ·)).map Token.ofMapping) := by
  rw [decode, String.toList_ofList]
  cases mappings with
  | nil => rfl
  | cons mapping rest =>
      have hzero : Totals.zero = Totals.zero.newLine := rfl
      rw [write, List.append_assoc, hzero, decodeFrom_semicolons, Nat.zero_add, decodeFrom_fields]
      exact decodeFrom_writeAfter hascend (decodeSegment_fields 0 .start mapping)

/-! ## Sorted mappings -/

theorem mem_insert {mapping other : Mapping} {mappings : List Mapping} :
    other ∈ insert mapping mappings ↔ other = mapping ∨ other ∈ mappings := by
  induction mappings with
  | nil => rw [insert, List.mem_singleton, or_iff_left (List.not_mem_nil)]
  | cons first rest ih =>
      rw [insert]
      split
      · rw [List.mem_cons]
      · rw [List.mem_cons, ih, List.mem_cons, or_left_comm]

theorem pairwise_insert (mapping : Mapping) {mappings : List Mapping}
    (h : mappings.Pairwise fun a b => a.generated.le b.generated = true) :
    (insert mapping mappings).Pairwise fun a b => a.generated.le b.generated = true := by
  induction mappings with
  | nil => exact List.pairwise_singleton _ _
  | cons first rest ih =>
      obtain ⟨hfirst, hrest⟩ := List.pairwise_cons.mp h
      rw [insert]
      split
      · rename_i hle
        refine List.pairwise_cons.mpr ⟨fun other hother => ?_, h⟩
        rcases List.mem_cons.mp hother with rfl | hother
        · exact hle
        · exact Position.le_trans hle (hfirst other hother)
      · rename_i hnot
        refine List.pairwise_cons.mpr ⟨fun other hother => ?_, ih hrest⟩
        rcases mem_insert.mp hother with rfl | hother
        · -- Of two positions one comes first.
          rw [Position.le_iff] at hnot ⊢
          omega
        · exact hfirst other hother

theorem pairwise_sort (mappings : List Mapping) :
    (sort mappings).Pairwise fun a b => a.generated.le b.generated = true := by
  induction mappings with
  | nil => exact List.Pairwise.nil
  | cons mapping rest ih => exact pairwise_insert mapping ih

theorem mem_sort {mapping : Mapping} {mappings : List Mapping} :
    mapping ∈ sort mappings ↔ mapping ∈ mappings := by
  induction mappings with
  | nil => rfl
  | cons other rest ih =>
      have hsort : sort (other :: rest) = insert other (sort rest) := rfl
      rw [hsort, mem_insert, ih, List.mem_cons]

/-- The mappings of a cut are read back. -/
theorem decode_write_ofCut (source output sourceName : String) (removed : List Span) :
    decode (String.ofList (write (ofCut source output sourceName removed).mappings)) =
      some (((ofCut source output sourceName removed).mappings.destutter (· ≠ ·)).map
        Token.ofMapping) := by
  apply decode_write
  apply List.Pairwise.isChain
  apply (pairwise_sort _).imp
  intro a b hab
  rw [Position.le_iff] at hab
  omega

end JsPrune.SourceMap
