import JsPrune.Comment.Category
import Mathlib.Data.List.Infix
/-!
# What the category of a comment says

The category is found by looking at the opening of a text and by searching all of it.  Here it is stated
by what stands where in the text: a search finds a tag or an annotation wherever it stands, also behind
an occurrence that does not count.
-/

namespace JsPrune.Category

def openerEnds : List Char := [' ', '\r', '\n', '\u2028', '\u2029']

def signs : List Char := ['@', '#']

def annotationNames : List String := ["__PURE__", "__NO_SIDE_EFFECTS__"]

/-- The text starts with an opener, and a character that ends it. -/
def Opens (opener text : String) : Prop :=
  ∃ c ∈ openerEnds, opener.toList ++ [c] <+: text.toList

/-- White space stands somewhere, then a license tag, and then no word goes on. -/
def HasLicenseTag (text : String) : Prop :=
  ∃ before space behind, text.toList = before ++ space :: ("@license".toList ++ behind) ∧
    Text.isWhiteSpace space = true ∧ ∀ c ∈ behind.head?, Text.isWordChar c = false

def HasAnnotation (text : String) : Prop :=
  ∃ sign ∈ signs, ∃ name ∈ annotationNames, sign :: name.toList <:+: text.toList

/-! ## Searches -/

theorem anyTail_iff {test : List Char → Bool} {cs : List Char} :
    anyTail test cs = true ↔ ∃ before tail, cs = before ++ tail ∧ test tail = true := by
  induction cs with
  | nil => simp [anyTail]
  | cons c cs ih =>
      rw [anyTail, Bool.or_eq_true, ih]
      constructor
      · rintro (htest | ⟨before, tail, rfl, htest⟩)
        · exact ⟨[], c :: cs, rfl, htest⟩
        · exact ⟨c :: before, tail, rfl, htest⟩
      · rintro ⟨before, tail, heq, htest⟩
        cases before with
        | nil => exact Or.inl (by rwa [heq])
        | cons d before => exact Or.inr ⟨before, tail, (List.cons.inj heq).2, htest⟩

theorem endsOpener_iff {c : Char} : endsOpener c = true ↔ c ∈ openerEnds := by
  simp [endsOpener, openerEnds, or_assoc]

theorem opensWith_iff {mark : Char} {cs : List Char} :
    opensWith mark cs = true ↔ ∃ c ∈ openerEnds, ['/', '*', mark] ++ [c] <+: cs := by
  constructor
  · intro h
    unfold opensWith at h
    split at h
    · next m c rest =>
        rw [Bool.and_eq_true, beq_iff_eq, endsOpener_iff] at h
        obtain ⟨rfl, hc⟩ := h
        exact ⟨c, hc, rest, rfl⟩
    · exact absurd h Bool.false_ne_true
  · rintro ⟨c, hc, rest, rfl⟩
    simp [opensWith, endsOpener_iff.mpr hc]

theorem startsWithLicenseTag_iff {cs : List Char} :
    startsWithLicenseTag cs = true ↔ ∃ space behind, cs = space :: ("@license".toList ++ behind) ∧
      Text.isWhiteSpace space = true ∧ ∀ c ∈ behind.head?, Text.isWordChar c = false := by
  have hends (behind : List Char) : (behind.head?.all fun next => !Text.isWordChar next) = true ↔
      ∀ c ∈ behind.head?, Text.isWordChar c = false := by
    rw [Option.all_eq_true]
    simp
  constructor
  · intro h
    unfold startsWithLicenseTag at h
    split at h
    · next space behind =>
        rw [Bool.and_eq_true, hends] at h
        exact ⟨space, behind, rfl, h⟩
    · exact absurd h Bool.false_ne_true
  · rintro ⟨space, behind, rfl, hspace, hbehind⟩
    have htag : "@license".toList = ['@', 'l', 'i', 'c', 'e', 'n', 's', 'e'] := by decide
    rw [htag]
    simp only [List.cons_append, List.nil_append, startsWithLicenseTag, hspace, Bool.true_and]
    exact (hends behind).mpr hbehind

theorem startsWithAnnotation_iff {cs : List Char} :
    startsWithAnnotation cs = true ↔
      ∃ sign ∈ signs, ∃ name ∈ annotationNames, sign :: name.toList <+: cs := by
  cases cs with
  | nil => simp [ startsWithAnnotation]
  | cons c rest =>
      simp only [signs, annotationNames, startsWithAnnotation, Bool.and_eq_true, Bool.or_eq_true,
        beq_iff_eq, List.isPrefixOf_iff_prefix, List.mem_cons, List.not_mem_nil, or_false,
        exists_eq_or_imp, exists_eq_left, List.cons_prefix_cons, @eq_comm _ c]
      rw [or_and_right, and_or_left, and_or_left]

theorem hasLicenseTag_iff {text : String} :
    HasLicenseTag text ↔ anyTail startsWithLicenseTag text.toList = true := by
  rw [anyTail_iff]
  constructor
  · rintro ⟨before, space, behind, htext, hspace, hbehind⟩
    exact ⟨before, _, htext, startsWithLicenseTag_iff.mpr ⟨space, behind, rfl, hspace, hbehind⟩⟩
  · rintro ⟨before, tail, htext, htag⟩
    obtain ⟨space, behind, rfl, hspace, hbehind⟩ := startsWithLicenseTag_iff.mp htag
    exact ⟨before, space, behind, htext, hspace, hbehind⟩

theorem hasAnnotation_iff {text : String} :
    HasAnnotation text ↔ anyTail startsWithAnnotation text.toList = true := by
  rw [anyTail_iff]
  constructor
  · rintro ⟨sign, hsign, name, hname, before, rest, htext⟩
    rw [List.append_assoc] at htext
    exact ⟨before, _, htext.symm,
      startsWithAnnotation_iff.mpr ⟨sign, hsign, name, hname, List.prefix_append _ rest⟩⟩
  · rintro ⟨before, tail, htext, hannotation⟩
    obtain ⟨sign, hsign, name, hname, rest, rfl⟩ := startsWithAnnotation_iff.mp hannotation
    exact ⟨sign, hsign, name, hname, before, rest, by rw [htext, List.append_assoc]⟩

theorem opens_license_iff {text : String} :
    Opens "/*!" text ↔ opensWith '!' text.toList = true := by
  rw [opensWith_iff]
  rfl

theorem opens_documentation_iff {text : String} :
    Opens "/**" text ↔ opensWith '*' text.toList = true := by
  rw [opensWith_iff]
  rfl

theorem not_opens_license {text : String} (h : Opens "/**" text) : ¬ Opens "/*!" text := by
  rintro ⟨d, -, hlicense⟩
  obtain ⟨c, -, hdocumentation⟩ := h
  have htexts : "/*!".toList ++ [d] = "/**".toList ++ [c] :=
    (List.prefix_of_prefix_length_le hlicense hdocumentation (by simp)).eq_of_length (by simp)
  have hopeners : "/*!".toList = "/**".toList := List.append_inj_left htexts rfl
  exact absurd hopeners (by decide)

/-- The category of a text, by what stands in it. -/
theorem ofText_iff (text : String) :
    (ofText text = .license ↔ Opens "/*!" text ∨ Opens "/**" text ∧ HasLicenseTag text) ∧
    (ofText text = .documentation ↔ Opens "/**" text ∧ ¬ HasLicenseTag text) ∧
    (ofText text = .hint ↔ ¬ Opens "/*!" text ∧ ¬ Opens "/**" text ∧ HasAnnotation text) ∧
    (ofText text = .meaningless ↔
      ¬ Opens "/*!" text ∧ ¬ Opens "/**" text ∧ ¬ HasAnnotation text) := by
  by_cases hlicense : Opens "/*!" text
  · have hopens : ¬ Opens "/**" text := fun h => not_opens_license h hlicense
    have hcategory : ofText text = .license := by
      simp [ofText, opens_license_iff.mp hlicense]
    simp [hcategory, hlicense, hopens]
  have hmark : ¬ opensWith '!' text.toList = true := mt opens_license_iff.mpr hlicense
  by_cases hopens : Opens "/**" text
  · have hcategory : ofText text =
        if anyTail startsWithLicenseTag text.toList then .license else .documentation := by
      simp [ofText, hmark, opens_documentation_iff.mp hopens]
    rw [hcategory, hasLicenseTag_iff]
    by_cases htag : anyTail startsWithLicenseTag text.toList = true <;>
      simp [hlicense, hopens, htag]
  · have hcategory : ofText text =
        if anyTail startsWithAnnotation text.toList then .hint else .meaningless := by
      simp [ofText, hmark, mt opens_documentation_iff.mpr hopens]
    rw [hcategory, hasAnnotation_iff]
    by_cases hannotation : anyTail startsWithAnnotation text.toList = true <;>
      simp [hlicense, hopens, hannotation]

/-- Neither a longer word nor a tag without a space before it hides the license tag behind them. -/
example : ofText "/** @licenses x@license @license*/" = .license := by decide +kernel

end JsPrune.Category
