import Ambient.Proofs.Forms
import Ambient.Proofs.Resting

/-!
Statements in declaration form are read as what they are: an import, a re-export or a default export
on its line, a declaration gathered from its lines, and a comment block that is pending behind it.
-/

namespace Ambient

namespace Canonical

open Atom Cleanup Phrase Scan

/-- The options of a run with the default settings. -/
def standard : Options :=
  ⟨Settings.default.multilineDeclarations, Settings.default.keepComments,
    .plain Settings.default.indentUnit⟩

/-! ### Balanced statements -/

theorem total_braced (first : Word) (more : List Word) :
    total braceShift (braced first more) = 0 := by
  simp [braced, total, total_append, braceShift, Phrase.total_shift]

theorem total_source (path : ModulePath) : total braceShift (source path) = 0 := rfl

theorem Import.balanced (i : Import) : braceBalance (spell i.atoms) = 0 := by
  rw [(balance_spell i.whole.sound).2]
  cases i <;> simp [atoms, total, total_append, braceShift, total_braced, total_source]

theorem Reexport.balanced (e : Reexport) : braceBalance (spell e.atoms) = 0 := by
  rw [(balance_spell e.whole.sound).2]
  cases e <;> simp [atoms, total, braceShift, total_braced, total_source]

theorem total_members (g : Gap) (first : Field) (more : List Field) :
    total shift (members g first more) = 0 := by
  induction more generalizing first with
  | nil => exact first.total_shift.1
  | cons f fs ih => simp [members, total, total_append, shift, ih, Phrase.total_shift]

theorem total_declaring (kind : Word) : total shift (declaring kind) = 0 := rfl

theorem total_signature (name : Word) (params : Params) : total shift (signature name params) = 0 := by
  cases params <;> simp [signature, total, total_append, shift, Phrase.total_shift]

namespace Declaration

theorem balanced (d : Declaration) : bracketBalance (spell d.atoms) = 0 := by
  rw [(balance_spell d.whole.sound).1]
  cases d <;> simp [atoms, constantBody, functionBody, total, total_append, shift, total_declaring,
    total_signature, total_members, Phrase.total_shift]

/-! ### Declarations -/

theorem gathersAt_declaring {t : Text} {k : DeclarationKind}
    (h : DeclarationKind.detect ("export declare ".toList ++ t) = k) :
    gathersAt standard ("export declare ".toList ++ t) = some (.declaration k) := by
  have opened : gathersAt standard ("export declare ".toList ++ t) =
      some (.declaration (.detect ("export declare ".toList ++ t))) := rfl
  rw [opened, h]

theorem detect_constant (t : Text) :
    DeclarationKind.detect ("export declare ".toList ++ (Word.constWord.text ++ ' ' :: t)) =
      .verbatim := by
  have either : DeclarationKind.detect
      ("export declare ".toList ++ (Word.constWord.text ++ ' ' :: t)) =
        if DeclarationKind.opensConstEnum
          ("export declare ".toList ++ (Word.constWord.text ++ ' ' :: t)) then .verbatim
        else .verbatim := rfl
  rw [either, ite_self]

theorem detect_alias (name : Word) (t : Text) :
    DeclarationKind.detect
        ("export declare ".toList ++ (Word.typeWord.text ++ ' ' :: (name.text ++ t))) =
      .typeAlias := by
  have named : (trimLeft (name.text ++ t)).head?.any isNameStart = true := by
    rw [trimLeft_of_head (c := name.first) rfl (isBlank_of_isNameStart name.start)]
    exact name.start
  have opened : DeclarationKind.detect
      ("export declare ".toList ++ (Word.typeWord.text ++ ' ' :: (name.text ++ t))) =
        if (trimLeft (name.text ++ t)).head?.any isNameStart then .typeAlias else .verbatim := rfl
  rw [opened, if_pos named]

/-! ### Aliases -/

theorem eq_assign_of_last {a : Atom} (h : '=' ∈ a.text.getLast?) : a = .sign .assign := by
  rcases last_class h with ⟨-, isName⟩ | sign
  · cases isName
  · cases a with
    | word w | literal q => simp [lastSigns] at sign
    | bracket b => cases b <;> simp [lastSigns, Bracket.char] at sign
    | sign s => cases s <;> first | rfl | simp [lastSigns, Sign.text] at sign
    | gap g => cases g <;> simp [lastSigns, Gap.text] at sign
    | brace g =>
      cases g with
      | none => simp [lastSigns] at sign
      | some g => cases g <;> simp [lastSigns, Gap.text] at sign
    | braces => simp [lastSigns] at sign

theorem eq_greater_of_last {a : Atom} (closing : closes a = true) (h : '>' ∈ a.text.getLast?) :
    a = .sign .greater := by
  rcases last_class h with ⟨-, isName⟩ | sign
  · cases isName
  · cases a with
    | word w | literal q => simp [lastSigns] at sign
    | bracket b => cases b <;> simp [lastSigns, Bracket.char] at sign
    | sign s => cases s <;> first | rfl | cases closing
    | gap g | brace g => cases closing
    | braces => simp [lastSigns] at sign

/-- What closes a phrase is no arrow: no equals sign may stand right before an angle sign. -/
theorem not_endsWith_arrow {named : Bool} {as : List Atom} (h : Spans named as) :
    endsWith "=>".toList (spell as) = false := by
  refine Bool.eq_false_iff.2 fun ends => ?_
  obtain ⟨t, split⟩ := List.isSuffixOf_iff_suffix.1 ends
  obtain ⟨z, last, closing⟩ := h.last
  obtain ⟨front, rfl⟩ := List.getLast?_eq_some_iff.1 last
  have final : '>' ∈ z.text.getLast? := by
    rw [← spell_last front z, ← split]
    simp
  obtain rfl := eq_greater_of_last closing final
  have before : spell front = t ++ ['='] := by
    have whole : spell front ++ ['>'] = (t ++ ['=']) ++ ['>'] := by
      rw [List.append_assoc]
      simpa [Sign.text] using split.symm
    exact List.append_cancel_right whole
  rcases List.eq_nil_or_concat' front with rfl | ⟨front, y, rfl⟩
  · simp at before
  · have equals : '=' ∈ y.text.getLast? := by
      rw [← spell_last front y, before]
      simp
    obtain rfl := eq_assign_of_last equals
    have sound := h.sound
    rw [List.append_assoc] at sound
    have follows := (List.isChain_append.1 sound).2.1
    simp [Follows] at follows

/-- A phrase does not end with a sign that carries an alias on. -/
theorem endsWithAny_trailingSigns {named : Bool} {as : List Atom} (h : Spans named as) :
    endsWithAny Statement.trailingSigns (spell as) = false := by
  have known : ∀ tail ∈ Statement.trailingSigns,
      tail = "=>".toList ∨ (tail.getLast?.any fun d => !isFinal d) = true := by decide
  obtain ⟨c, last, final⟩ := h.last_char
  refine List.any_eq_false.2 fun tail member => ?_
  rcases known tail member with rfl | other
  · exact Bool.eq_false_iff.1 (not_endsWith_arrow h)
  · intro ends
    obtain ⟨d, isLast, open'⟩ := (Option.any_eq_true _ _).1 other
    obtain ⟨t, split⟩ := List.isSuffixOf_iff_suffix.1 ends
    have same : (spell as).getLast? = some d := by
      rw [← split, List.getLast?_append, show tail.getLast? = some d from isLast]
      rfl
    obtain rfl : c = d := Option.some.inj (last.symm.trans same)
    simp [final] at open'

/-! ### Interfaces -/

/-- An interface up to some of its members. -/
def opened (name : Word) : List Field → List Atom
  | [] => opening name
  | f :: fs =>
    declaring .interfaceWord ++ [.word name, .gap .space, .brace (some .indent)] ++
      members .indent f fs

theorem trimRight_memberLine (f : Field) : trimRight (memberLine f) = memberLine f := by
  have spans : Spans true f.atoms := f.spans
  obtain ⟨c, last, final⟩ := spans.last_char
  have last : (memberLine f).getLast? = some c :=
    getLast?_cons_of_mem (getLast?_cons_of_mem last)
  exact trimRight_of_getLast last (isBlank_of_isFinal final)

theorem last_opened (name : Word) (fs : List Field) :
    ∃ c ∈ (spell (opened name fs)).getLast?, isBlank c = false := by
  cases fs with
  | nil =>
    have last : (spell (opening name)).getLast? = some '{' :=
      spell_last (declaring .interfaceWord ++ [.word name, .gap .space]) (.brace none)
    exact ⟨'{', last, by decide⟩
  | cons f fs =>
    obtain ⟨c, last, final⟩ := (spans_members .indent f fs).last_char
    refine ⟨c, ?_, isBlank_of_isFinal final⟩
    rw [opened, spell_append, List.getLast?_append, show _ = some c from last]
    rfl

theorem joinLines_opened (name : Word) (fs : List Field) :
    joinLines (spell (opening name) :: fs.map memberLine) = spell (opened name fs) := by
  cases fs with
  | nil => exact joinLines_singleton _
  | cons f fs =>
    rw [joinLines, joinPieces_cons_of_ne_nil _ _ (by simp), ← joinLines, joinLines_members]
    simp [opened, opening, Gap.text]

theorem trimRight_lines (name : Word) (fs : List Field) :
    (spell (opening name) :: fs.map memberLine).map trimRight =
      spell (opening name) :: fs.map memberLine := by
  obtain ⟨c, last, solid⟩ := last_opened name []
  have opening : trimRight (spell (opening name)) = spell (opening name) :=
    trimRight_of_getLast last solid
  have members : (fs.map memberLine).map trimRight = fs.map memberLine := by
    rw [List.map_map]
    exact List.map_congr_left fun f _ => trimRight_memberLine f
  rw [List.map_cons, opening, members]

theorem gatheredText_opened (name : Word) (fs : List Field) :
    gatheredText (spell (opening name) :: fs.map memberLine) = spell (opened name fs) := by
  obtain ⟨c, last, solid⟩ := last_opened name fs
  have head : (spell (opened name fs)).head? = some 'e' := by cases fs <;> rfl
  rw [gatheredText, trimRight_lines, joinLines_opened]
  exact trim_of_ends head last (by decide) solid

theorem gatheredText_interface (name : Word) (first : Field) (more : List Field) :
    gatheredText (interface name first more).lines = spell (interface name first more).atoms := by
  have lines : (interface name first more).lines.map trimRight = (interface name first more).lines := by
    have closing : trimRight ['}'] = ['}'] := rfl
    rw [Declaration.lines, List.map_append, trimRight_lines, List.map_singleton, closing]
  rw [gatheredText, lines, joinLines_lines, (interface name first more).whole.settles.trim_eq]

theorem balance_opened (name : Word) (fs : List Field) :
    bracketBalance (spell (opened name fs)) = 1 := by
  have sound : Sound (opened name fs) := by
    cases fs with
    | nil => exact sound_of_isSound rfl
    | cons f fs =>
      exact (spans_members .indent f fs).sound_prepend (sound_of_isSound rfl)
        ⟨_, rfl, leads_brace _⟩
  rw [(balance_spell sound).1]
  cases fs <;> simp [opened, opening, total, total_append, shift, total_declaring, total_members]

theorem opensDefault_of_classify {t : Text} (h : LineKind.classify t = .defaultExport) :
    DeclarationKind.opensDefault t = true := by
  by_contra closed
  rw [LineKind.classify, if_neg closed] at h
  split_ifs at h

/-- A member is no default export. -/
theorem classify_member (f : Field) :
    LineKind.classify (trim (memberLine f)) ≠ .defaultExport := by
  rw [trim_memberLine]
  cases f with
  | named name type =>
    have spelled : spell (Phrase.named name type).atoms =
        name.text ++ ':' :: (' ' :: spell type.atoms) := by
      simp [Phrase.atoms, Sign.text, Gap.text]
    have unexported : afterExport? (spell (Phrase.named name type).atoms) = none := by
      rw [spelled]
      exact afterSpaced?_of_solid (by decide) (by decide)
        fun c member => isBlank_of_isNameChar (name.all_chars c member)
    intro same
    have opens := opensDefault_of_classify same
    rw [DeclarationKind.opensDefault, unexported] at opens
    cases opens

theorem takes_typeAlias (name : Word) (type : Ty) :
    Takes standard (typeAlias name type).lines .typeAlias (spell (typeAlias name type).atoms) := by
  have trimmed := (typeAlias name type).whole.settles.trim_eq
  obtain ⟨rest, split⟩ : ∃ rest, (typeAlias name type).atoms =
      declaring .typeWord ++ .word name :: rest := ⟨_, rfl⟩
  have opens : gathersAt standard (spell (typeAlias name type).atoms) =
      some (.declaration .typeAlias) := by
    rw [split, spell_declaring, spell_cons, text_word]
    exact gathersAt_declaring (detect_alias name _)
  have ends := endsWithAny_trailingSigns (spans_typeAlias name type)
  have balance := (typeAlias name type).balanced
  rw [← trimmed] at opens ends balance
  have takes := takes_alias rfl opens balance ends
  rwa [trimmed] at takes

theorem takes_interface (name : Word) (first : Field) (more : List Field) :
    Takes standard (interface name first more).lines .interface
      (spell (interface name first more).atoms) := by
  have trimmed : trim (spell (opening name)) = spell (opening name) := by
    obtain ⟨c, last, solid⟩ := last_opened name []
    exact trim_of_ends rfl last (by decide) solid
  have opens : gathersAt standard (trim (spell (opening name))) = some (.declaration .interface) := by
    rw [trimmed, opening, spell_declaring]
    exact gathersAt_declaring rfl
  have quiet : ∀ t ∈ (first :: more).map memberLine ++ [['}']],
      LineKind.classify (trim t) ≠ .defaultExport := by
    intro t member
    rcases List.mem_append.1 member with member | member
    · obtain ⟨f, -, rfl⟩ := List.mem_map.1 member
      exact classify_member f
    · rw [List.mem_singleton.1 member]
      decide
  have open' : ∀ ts, ts <+: (first :: more).map memberLine →
      bracketBalance (gatheredText (spell (opening name) :: ts)) ≠ 0 := by
    intro ts isPrefix
    obtain ⟨fs, -, rfl⟩ := List.prefix_map_iff.1 isPrefix
    rw [gatheredText_opened, balance_opened]
    decide
  have balance := (interface name first more).balanced
  rw [← gatheredText_interface] at balance ⊢
  have kept : ∀ t ∈ (first :: more).map memberLine ++ [['}']],
      (Target.declaration .interface).diverts (trim t) = false :=
    fun t _ => diverts_of_not_constant (by decide) (trim t)
  exact takes_lines opens (by decide) kept quiet open' balance

/-- **A declaration is gathered from its lines.** -/
theorem takes (d : Declaration) : Takes standard d.lines d.kind (spell d.atoms) := by
  have trimmed : trim (spell d.atoms) = spell d.atoms := d.whole.settles.trim_eq
  have single {kind : DeclarationKind} (notAlias : kind ≠ .typeAlias) (notConstant : kind ≠ .constant)
      (opens : gathersAt standard (spell d.atoms) = some (.declaration kind)) :
      Takes standard [spell d.atoms] kind (spell d.atoms) := by
    have balance : (Target.declaration kind).balance (spell d.atoms) = 0 := by
      rw [← d.balanced]
      cases kind <;> first | rfl | exact absurd rfl notConstant
    rw [← trimmed] at opens balance
    have takes := takes_line opens notAlias balance
    rwa [trimmed] at takes
  cases d with
  | constant name type =>
    refine single (by simp [kind]) (by simp [kind]) ?_
    obtain ⟨rest, split⟩ : ∃ rest, (constant name type).atoms = declaring .constWord ++ rest :=
      ⟨_, rfl⟩
    rw [split, spell_declaring]
    exact gathersAt_declaring (detect_constant _)
  | function name params result =>
    refine single (by simp [kind]) (by simp [kind]) ?_
    obtain ⟨rest, split⟩ : ∃ rest, (function name params result).atoms =
        declaring .functionWord ++ rest := ⟨_, rfl⟩
    rw [split, spell_declaring]
    exact gathersAt_declaring rfl
  | typeAlias name type => exact takes_typeAlias name type
  | marker name =>
    refine single (by simp [kind]) (by simp [kind]) ?_
    rw [atoms, spell_declaring]
    exact gathersAt_declaring rfl
  | interface name first more => exact takes_interface name first more

end Declaration

/-! ### Reading -/

theorem reads_imports (c : CommentBlock) (is : List Import) :
    Reads standard c (is.map (spell ·.atoms)) c (Shown.addImports (is.map (spell ·.atoms))) := by
  rw [← List.flatMap_pure_eq_map]
  refine Reads.flatMap Shown.adds_imports is fun i => ?_
  have trimmed := i.whole.settles.trim_eq
  have kind : LineKind.classify (trim (spell i.atoms)) = .importing := by
    rw [trimmed]
    cases i <;> rfl
  have reads := reads_import (o := standard) (c := c) kind (by rw [trimmed]; exact i.balanced)
  rw [trimmed, normalize_spell] at reads
  exact reads

theorem reads_reexports (c : CommentBlock) (es : List Reexport) :
    Reads standard c (es.map (spell ·.atoms)) c (Shown.addReexports (es.map (spell ·.atoms))) := by
  rw [← List.flatMap_pure_eq_map]
  refine Reads.flatMap Shown.adds_reexports es fun e => ?_
  have trimmed := e.whole.settles.trim_eq
  have kind : LineKind.classify (trim (spell e.atoms)) = .reexport := by
    rw [trimmed]
    cases e <;> rfl
  have reads := reads_reexport (o := standard) (c := c) kind (by rw [trimmed]; exact e.balanced)
  rw [trimmed] at reads
  exact reads

theorem reads_defaultExport (c : CommentBlock) (name : Word) :
    Reads standard c [spell (defaultExport name)] c fun v =>
      ⟨v.imports, v.declarations, v.reexports, some (spell (defaultExport name))⟩ := by
  have trimmed := (whole_defaultExport name).settles.trim_eq
  have kind : LineKind.classify (trim (spell (defaultExport name))) = .defaultExport := by
    rw [trimmed]
    rfl
  have reads := reads_default (o := standard) (c := c) kind
  rw [trimmed] at reads
  have same : ((standard.style.formOf .default).form standard.style.indentUnit
      (spell (defaultExport name))).value = spell (defaultExport name) := ambientDefault_spell name
  rw [same] at reads
  exact reads

namespace CommentText

theorem reads_opening {r : Text} (solid : ∀ c ∈ r.getLast?, isBlank c = false) (c : CommentBlock) :
    Reads standard c ["/**".toList ++ r] ⟨["/**".toList ++ r]⟩ id := by
  obtain ⟨d, last, final⟩ : ∃ d ∈ ("/**".toList ++ r).getLast?, isBlank d = false :=
    last_marked rfl solid
  have trimmed : trim ("/**".toList ++ r) = "/**".toList ++ r :=
    trim_of_ends rfl last (by decide) final
  have kind : LineKind.classify (trim ("/**".toList ++ r)) = .comment := by
    rw [trimmed]
    rfl
  have opens : startsWith "/*".toList (trim ("/**".toList ++ r)) = true := by
    rw [trimmed]
    rfl
  have reads := reads_comment (o := standard) (c := c) kind
  rw [if_pos opens, trimRight_of_getLast last final] at reads
  exact reads

theorem reads_star {r : Text} (solid : ∀ c ∈ r.getLast?, isBlank c = false) (c : CommentBlock) :
    Reads standard c [" *".toList ++ r] (c.push (" *".toList ++ r)) id := by
  obtain ⟨d, last, final⟩ : ∃ d ∈ ("*".toList ++ r).getLast?, isBlank d = false :=
    last_marked rfl solid
  have trimmed : trim (" *".toList ++ r) = "*".toList ++ r :=
    (trim_space _).trans (trim_of_ends rfl last (by decide) final)
  have kind : LineKind.classify (trim (" *".toList ++ r)) = .comment := by
    rw [trimmed]
    rfl
  have goesOn : startsWith "/*".toList (trim (" *".toList ++ r)) = false := by
    rw [trimmed]
    rfl
  have kept : trimRight (" *".toList ++ r) = " *".toList ++ r :=
    trimRight_of_getLast (getLast?_cons_of_mem last) final
  have reads := reads_comment (o := standard) (c := c) kind
  rw [goesOn, kept] at reads
  exact reads

theorem reads_stars {rs : List Text} (solid : ∀ r ∈ rs, ∀ c ∈ r.getLast?, isBlank c = false)
    (ls : List Text) :
    Reads standard ⟨ls⟩ (rs.map (" *".toList ++ ·)) ⟨ls ++ rs.map (" *".toList ++ ·)⟩ id := by
  induction rs generalizing ls with
  | nil =>
    rw [List.map_nil, List.append_nil]
    exact .nil
  | cons r rs ih =>
    have here := reads_star (solid r (by simp)) ⟨ls⟩
    have later := ih (fun r member => solid r (by simp [member])) (ls ++ [" *".toList ++ r])
    rw [List.append_assoc] at later
    exact here.append later

/-- A comment block is pending behind its lines. -/
theorem reads (t : CommentText) (c : CommentBlock) : Reads standard c t.lines ⟨t.lines⟩ id :=
  (reads_opening (t.solid t.opening (by simp)) c).append
    (reads_stars (fun r member => t.solid r (by simp [member])) _)

theorem take?_block (t : CommentText) : CommentBlock.take? ⟨t.lines⟩ = some (joinLines t.lines) := by
  have some_char : joinLines t.lines ≠ [] := by
    intro empty
    obtain ⟨c, last, -⟩ := t.last_joinLines
    rw [empty] at last
    cases last
  rw [CommentBlock.take?, t.text_block, if_neg some_char]

end CommentText

end Canonical

end Ambient
