import Ambient.Proofs.Annotation
import Ambient.Proofs.GatheredText
import Ambient.Proofs.Properties

/-!
Constants that hold an object literal with one property to a line. The scanner gathers the literal up
to its last brace, since no line before that closes what the first one opens (`ObjectLines.takes`), and
writes the tree of its properties behind a type inferred from the root (`ObjectLines.ambient`).
-/

namespace Ambient

/-- The opening line of a constant that holds an object. -/
def objectOpening (name : Word) : Text := "export const ".toList ++ (name.text ++ " = \x7b".toList)

/-- The constant in ambient form. -/
def objectText (unit : Text) (name : Word) (ps : Properties) : Text :=
  "export declare const ".toList ++ name.text ++ ": \x7b [key: string]: ".toList ++
    ps.sharedKind.typeName ++ " \x7d \x7b\n".toList ++ joinLines (ps.rendered unit 1) ++ "\n\x7d;".toList

/-! ### The opening line -/

/-- A name of word characters starts with no other whole word. -/
theorem startsWithWord_name {name : Word} (chars : ∀ c ∈ name.text, isWord c = true) {word : Text}
    (other : name.text ≠ word) (oneWord : ' ' ∉ word) (r : Text) :
    startsWithWord word (name.text ++ ' ' :: r) = false := by
  refine Bool.eq_false_iff.2 fun starts => ?_
  obtain ⟨u, found, ends⟩ := (Option.any_eq_true _ _).1 starts
  rcases List.append_eq_append_iff.1 (after?_eq_some_iff.1 found) with
    ⟨more, longer, behind⟩ | ⟨more, longer, behind⟩
  · cases more with
    | nil => exact other (by rw [longer, List.append_nil])
    | cons c more =>
      obtain rfl : ' ' = c := (List.cons.inj behind).1
      exact oneWord (by rw [longer]; simp)
  · cases more with
    | nil => exact other (by rw [longer, List.append_nil])
    | cons c more =>
      have inName := chars c (by rw [longer]; simp)
      rw [behind, List.cons_append, wordEnd, inName] at ends
      cases ends

theorem gathersAt_objectOpening (o : Scan.Options) {name : Word}
    (chars : ∀ c ∈ name.text, isWord c = true) (other : name.text ≠ "enum".toList) :
    Scan.gathersAt o (objectOpening name) = some (.declaration .constant) := by
  have kind : LineKind.classify (objectOpening name) = .constant :=
    DeclarationKind.classify_of_constant rfl rfl
  have either : DeclarationKind.detect (objectOpening name) =
      if DeclarationKind.opensConstEnum (objectOpening name) then .verbatim else .constant := rfl
  have behind : DeclarationKind.opensConstEnum (objectOpening name) =
      startsWithWord "enum".toList (trimLeft (name.text ++ " = \x7b".toList)) := rfl
  have first : (name.text ++ " = \x7b".toList).head? = some name.first := rfl
  have noEnum : DeclarationKind.opensConstEnum (objectOpening name) = false := by
    rw [behind, trimLeft_of_head first (isBlank_of_isNameStart name.start)]
    exact startsWithWord_name chars other (by decide) "= \x7b".toList
  rw [Scan.gathersAt, kind]
  simp only
  rw [either, noEnum, if_neg (by decide)]

theorem written_objectOpening (name : Word) :
    Written (objectOpening name) ∧ braceBalance (objectOpening name) = 1 := by
  have words : ∀ c ∈ "export const ".toList ++ " = ".toList, isDull c = true := by decide
  have dull : ∀ c ∈ "export const ".toList ++ (name.text ++ " = ".toList), isDull c = true := by
    intro c member
    simp only [List.mem_append] at member
    rcases member with front | inName | back
    · exact words c (List.mem_append_left _ front)
    · exact isDull_of_isNameChar (name.all_chars c inName)
    · exact words c (List.mem_append_right _ back)
  obtain ⟨front, unmarked⟩ := Written.of_dull dull
  have split : objectOpening name = "export const ".toList ++ (name.text ++ " = ".toList) ++ ['{'] := by
    rw [List.append_assoc, List.append_assoc]
    rfl
  refine ⟨split ▸ front.append written_brace, ?_⟩
  rw [split, braceBalance_eq, front.marks_append written_brace, Outline.braceDepth_append,
    Outline.braceDepth_of_unmarked unmarked, ← braceBalance_eq, balances_brace.2]
  rfl

theorem read?_objectOpening (name : Word) :
    Constant.Opening.read? (name.text ++ " = \x7b".toList) = some ⟨name.text, [], ['{']⟩ := by
  have stop : ∀ c ∈ (" = \x7b".toList).head?, isNameChar c = false := by decide
  have assign : Nesting.find? true ['='] 0 " = \x7b".toList = some 1 := by decide +kernel
  rw [Constant.Opening.read?, Constant.name?_word name stop, Option.map_some]
  simp only [assign]
  rfl

/-- Blank lines add nothing to a balance. -/
theorem sum_solid (ts : List Text) :
    (ts.map braceBalance).sum = ((ts.filter (· != [])).map braceBalance).sum := by
  induction ts with
  | nil => rfl
  | cons t ts ih =>
    by_cases blank : t = []
    · rw [List.filter_cons_of_neg (by simpa using blank), List.map_cons, List.sum_cons, blank,
        braceBalance_nil, ih, Int.zero_add]
    · rw [List.filter_cons_of_pos (by simpa using blank), List.map_cons, List.map_cons, List.sum_cons,
        List.sum_cons, ih]

/-! ### The lines of the constant -/

/-- The lines of an object constant: the opening one, the properties among blank lines, the brace. -/
structure ObjectLines (name : Word) (ps : Properties) (first : Text) (mid : List Text) (last : Text) :
    Prop where
  opened : trim first = objectOpening name
  laid : (mid.map trim).filter (· != []) = ps.lines
  closed : trim last = ['}']

namespace ObjectLines

variable {name : Word} {ps : Properties} {first last : Text} {mid : List Text}

section
variable (h : ObjectLines name ps first mid last)
include h

/-- A line behind the opening one is blank, or it belongs to the literal. -/
theorem blank_or_member : ∀ t ∈ mid ++ [last], trim t = [] ∨ IsMember (trim t) := by
  intro t member
  rcases List.mem_append.1 member with member | member
  · by_cases blank : trim t = []
    · exact .inl blank
    · have kept : trim t ∈ (mid.map trim).filter (· != []) :=
        List.mem_filter.2 ⟨List.mem_map_of_mem member, by simpa using blank⟩
      exact .inr (ps.isMember_lines _ (h.laid ▸ kept))
  · rw [List.mem_singleton.1 member, h.closed]
    exact .inr (close_facts false).1

theorem written : ∀ t ∈ first :: mid ++ [last], Written (trim t) := by
  refine List.forall_mem_cons.2 ⟨h.opened ▸ (written_objectOpening name).1, fun t member => ?_⟩
  rcases h.blank_or_member t member with blank | member
  · exact blank ▸ .nil
  · exact member.written

/-- Up to a property the lines close no more than they open, so the first brace is still open. -/
theorem open_before {ts : List Text} (isPrefix : ts <+: mid) :
    0 < braceBalance (Scan.gatheredText (first :: ts)) := by
  have shifts : ((ts.map trim).filter (· != [])).map braceBalance <+: ps.shifts := by
    rw [← ps.balances_lines.2, ← h.laid]
    exact ((isPrefix.map trim).filter _).map braceBalance
  have climbs := ps.sum_take_shifts (((ts.map trim).filter (· != [])).map braceBalance).length
  rw [← List.prefix_iff_eq_take.1 shifts, ← sum_solid] at climbs
  have inside := List.cons_subset_cons first (isPrefix.trans (List.prefix_append mid [last])).subset
  rw [Scan.braceBalance_gatheredText fun t member => h.written t (inside member), List.map_cons,
    List.map_cons, List.sum_cons, h.opened, (written_objectOpening name).2]
  omega

theorem balanced : braceBalance (Scan.gatheredText (first :: mid ++ [last])) = 0 := by
  have whole : ((mid.map trim).map braceBalance).sum = 0 := by
    rw [sum_solid, h.laid, ps.balances_lines.2, ps.sum_shifts]
  have close : braceBalance ['}'] = -1 := (close_facts false).2.2.1
  rw [Scan.braceBalance_gatheredText h.written]
  simp only [List.cons_append, List.map_cons, List.map_append, List.map_nil, List.sum_cons,
    List.sum_append, List.sum_nil, h.opened, h.closed, (written_objectOpening name).2, whole, close]
  rfl

/-- **A constant is gathered up to the brace that closes its object**, whatever brackets stand in the
literals. -/
theorem takes (o : Scan.Options) (chars : ∀ c ∈ name.text, isWord c = true)
    (other : name.text ≠ "enum".toList) :
    Scan.Takes o (first :: mid ++ [last]) .constant (Scan.gatheredText (first :: mid ++ [last])) := by
  have opens : Scan.gathersAt o (trim first) = some (.declaration .constant) := by
    rw [h.opened, gathersAt_objectOpening o chars other]
  have kept : ∀ t ∈ mid ++ [last], (Target.declaration .constant).diverts (trim t) = false := by
    intro t member
    rcases h.blank_or_member t member with blank | member
    · rw [blank]
      rfl
    · exact member.not_diverted _
  have quiet : ∀ t ∈ mid ++ [last], LineKind.classify (trim t) ≠ .defaultExport := by
    intro t member
    rcases h.blank_or_member t member with blank | member
    · rw [blank]
      decide
    · exact member.not_default
  exact Scan.takes_lines opens (by decide) kept quiet
    (fun ts isPrefix => Int.ne_of_gt (h.open_before isPrefix)) h.balanced

/-- The text that is gathered has the trimmed lines of the constant. -/
theorem lines_text (free : ∀ t ∈ first :: mid ++ [last], '\n' ∉ t) :
    (lines (trim (Scan.gatheredText (first :: mid ++ [last])))).map trim =
      objectOpening name :: (mid.map trim ++ [['}']]) := by
  have solid : trim first ≠ [] := by
    rw [h.opened]
    exact List.cons_ne_nil _ _
  have solid' : trim last ≠ [] := by
    rw [h.closed]
    exact List.cons_ne_nil _ _
  rw [Scan.lines_gatheredText free solid solid', List.cons_append, List.map_cons, List.map_append,
    List.map_singleton, h.opened, h.closed]

/-- The members of the literal are its lines without the last brace. -/
theorem members (initializer : Text) :
    Constant.members (objectOpening name :: (mid.map trim ++ [['}']])) initializer = mid.map trim := by
  have interior : interior (objectOpening name :: (mid.map trim ++ [['}']])) = mid.map trim := by
    have last : (mid.map trim ++ [['}']]).getLast? = some ['}'] := List.getLast?_concat
    have brace : startsWith ['}'] (trim ['}']) = true := by decide
    simp only [Ambient.interior, List.drop_succ_cons, List.drop_zero, last, Option.any_some, brace,
      ↓reduceIte, List.dropLast_concat]
  have long : (objectOpening name :: (mid.map trim ++ [['}']])).length > 1 := by simp
  rw [Constant.members, if_pos long, interior, List.filter_eq_self]
  intro l member
  obtain ⟨t, inside, rfl⟩ := List.mem_map.1 member
  rcases h.blank_or_member t (List.mem_append_left _ inside) with blank | member
  · rw [blank]
    rfl
  · simp [member.not_comment.1]

/-- The members stand at their levels in the tree. -/
theorem levels : Nesting.levels 1 (mid.map trim) = ps.leveled 1 := by
  have twice : trim ∘ trim = trim := funext trim_trim
  have kept : ((mid.map trim).map trim).filter (· != []) = ps.lines := by
    rw [List.map_map, twice, h.laid]
  exact (levels_of_written 1 kept fun l member => (ps.isMember_lines l member).written).trans
    (ps.lineLevels_lines 1)

theorem type : (objectType (mid.map trim)).value = indexSignature ps.sharedKind := by
  have value : (objectType (mid.map trim)).value =
      indexSignature (Property.commonKind (Property.ofLines (mid.map trim))) := rfl
  rw [value, Property.ofLines, h.levels, ps.commonKind_eq ps.kinds_outer]

/-- **The properties are laid out by their depth, behind a type that the root gives.** -/
theorem ambient (unit : Text) {t : Text}
    (spelled : (lines (trim t)).map trim = objectOpening name :: (mid.map trim ++ [['}']])) :
    (Constant.ambient unit t).value = objectText unit name ps := by
  have header : Constant.header t = name.text ++ " = \x7b".toList := by
    refine Constant.header_of_first (c := name.first) ?_ rfl (isBlank_of_isNameStart name.start)
    obtain ⟨l, ls, split⟩ := List.exists_cons_of_ne_nil (pieces_ne_nil '\n' (trim t))
    have same : lines (trim t) = l :: ls := split
    rw [same] at spelled ⊢
    exact (List.cons.inj spelled).1
  have members : renderMembers unit (mid.map trim) = joinLines (ps.rendered unit 1) := by
    rw [renderMembers, h.levels, ps.rendered_lines]
  have brace : startsWith ['{'] ['{'] = true := by decide
  have signature : indexSignature ps.sharedKind =
      "\x7b [key: string]: ".toList ++ ps.sharedKind.typeName ++ " \x7d".toList := rfl
  have text : objectText unit name ps =
      "export declare const ".toList ++ name.text ++ ": \x7b [key: string]: ".toList ++
        ps.sharedKind.typeName ++ " \x7d \x7b\n".toList ++ joinLines (ps.rendered unit 1) ++
          "\n\x7d;".toList := rfl
  rw [Constant.ambient_value, header, read?_objectOpening, spelled, text]
  simp only [h.members, brace, ↓reduceIte, Constant.literalType, h.type, members, Constant.head_eq,
    signature, List.append_assoc]
  rfl

end

end ObjectLines

/-! ### The whole source -/

/-- Where the solid lines of a source are those of an object constant. -/
theorem exists_objectLines {name : Word} {ps : Properties} {ls : List Text}
    (h : (ls.map trim).filter (· != []) = objectOpening name :: (ps.lines ++ [['}']])) :
    ∃ front first mid last back, ls = front ++ (first :: mid ++ [last]) ++ back ∧
      (∀ l ∈ front, trim l = []) ∧ ObjectLines name ps first mid last ∧ ∀ l ∈ back, trim l = [] := by
  have blank {ts : List Text} (none : ∀ t ∈ ts.map trim, ¬ (t != []) = true) :
      ∀ l ∈ ts, trim l = [] := fun l member => by
    simpa using none (trim l) (List.mem_map_of_mem member)
  obtain ⟨u, v, whole, before, -, rest⟩ := List.filter_eq_cons_iff.1 h
  obtain ⟨front, _, rfl, rfl, tail⟩ := List.map_eq_append_iff.1 whole
  obtain ⟨first, _, rfl, opened, rfl⟩ := List.map_eq_cons_iff.1 tail
  obtain ⟨u, w, whole, inner, rest⟩ := List.filter_eq_append_iff.1 rest
  obtain ⟨mid, _, rfl, rfl, rfl⟩ := List.map_eq_append_iff.1 whole
  obtain ⟨u, v, whole, gap, -, rest⟩ := List.filter_eq_cons_iff.1 rest
  obtain ⟨space, _, rfl, rfl, tail⟩ := List.map_eq_append_iff.1 whole
  obtain ⟨last, back, rfl, closed, rfl⟩ := List.map_eq_cons_iff.1 tail
  have none : (space.map trim).filter (· != []) = [] := List.filter_eq_nil_iff.2 gap
  have laid : ((mid ++ space).map trim).filter (· != []) = ps.lines := by
    rw [List.map_append, List.filter_append, inner, none, List.append_nil]
  exact ⟨front, first, mid ++ space, last, back, by simp, blank before, ⟨opened, laid, closed⟩,
    blank (List.filter_eq_nil_iff.1 rest)⟩

namespace Scan

/-- **An object constant becomes one record**, with its properties laid out by their depth and a type
that its outermost properties share, whatever brackets, separators and comment marks stand in the
literals, however the lines are indented, and in either mode. -/
theorem object_constant_rendered (multiline keep : Bool) (unit : Text) {name : Word}
    (chars : ∀ c ∈ name.text, isWord c = true) (other : name.text ≠ "enum".toList) (ps : Properties)
    {source : Text}
    (laid : ((lines source).map trim).filter (· != []) = objectOpening name :: (ps.lines ++ [['}']])) :
    (scan ⟨multiline, keep, .plain unit⟩ source).value =
      ⟨[], [⟨.constant, objectText unit name ps, none,
        (lines source).findIdx (fun l => trim l != []) + 1⟩], [], none⟩ := by
  obtain ⟨front, first, mid, last, back, split, before, object, behind⟩ := exists_objectLines laid
  let literal := first :: mid ++ [last]
  have free : ∀ t ∈ literal, '\n' ∉ t := by
    intro t member
    have inSource : t ∈ lines source := by
      rw [split]
      exact List.mem_append_left back (List.mem_append_right front member)
    exact not_mem_of_mem_pieces inSource
  have line : (lines source).findIdx (fun l => trim l != []) = front.length := by
    have none : front.findIdx (fun l => trim l != []) = front.length :=
      List.findIdx_eq_length.2 fun l member => by simp [before l member]
    have here : (trim first != []) = true := by
      rw [object.opened]
      rfl
    rw [split, List.append_assoc, List.findIdx_append, none, if_neg (Nat.lt_irrefl _), List.cons_append,
      List.cons_append, List.findIdx_cons, here, cond_true, Nat.zero_add]
  have becomes : (DeclarationKind.constant.form unit (gatheredText literal)).value = objectText unit name ps :=
    object.ambient unit (object.lines_text free)
  rw [scan_of_takes split before behind (object.takes _ chars other), record_start, becomes, line]

/-- Literals with brackets, separators and comment marks, an object within the object, blank lines and
indentation of all kinds. -/
theorem nested_object_rendered :
    let key : Quotation := ⟨'"', "a: \x7b, //".toList, .inl rfl, by decide⟩
    let value : Quotation := ⟨'\'', "\x7d */".toList, .inr rfl, by decide⟩
    let table : Word := ⟨'t', "able".toList, by decide, by decide⟩
    let inner : Word := ⟨'i', "nner".toList, by decide, by decide⟩
    let size : Word := ⟨'s', "ize".toList, by decide, by decide⟩
    let ps : Properties :=
      .leaf (.quoted ⟨'"', key.body, .inl rfl, key.quotedBody⟩)
        (.quoted ⟨'\'', value.body, .inr rfl, value.quotedBody⟩) true
        (.node (.name inner)
          (.leaf (.name size) (.integer (some '-') (by decide) '3' [] (by decide)) false .nil) true .nil)
    let source : Text := ("\nexport const table = \x7b\n\t\"a: \x7b, //\": '\x7d */',\n\n" ++
      "    inner: \x7b\n  size: -3\n \x7d,\n\x7d\n").toList
    (∀ c ∈ table.text, isWord c = true) ∧ table.text ≠ "enum".toList ∧
      ((lines source).map trim).filter (· != []) = objectOpening table :: (ps.lines ++ [['}']]) ∧
      (scan ⟨false, true, .plain "  ".toList⟩ source).value = ⟨[], [⟨.constant,
        ("export declare const table: \x7b [key: string]: any \x7d \x7b\n  \"a: \x7b, //\": '\x7d */';\n" ++
          "  inner: \x7b\n    size: -3;\n  \x7d;\n\x7d;").toList, none, 2⟩], [], none⟩ := by
  intro key value table inner size ps source
  have chars : ∀ c ∈ table.text, isWord c = true := by decide
  have other : table.text ≠ "enum".toList := by decide
  have laid : ((lines source).map trim).filter (· != []) =
      objectOpening table :: (ps.lines ++ [['}']]) := by decide +kernel
  refine ⟨chars, other, laid, ?_⟩
  rw [object_constant_rendered false true "  ".toList chars other ps laid]
  decide +kernel

/-- A name that starts with a digit is none: the constant is kept as it is written. -/
theorem digit_constant_kept :
    let source : Text := "export const 1 = \x7b\n\x7d".toList
    let rendered : Text := "export declare const 1: \x7b [key: string]: any \x7d \x7b\n\n\x7d;".toList
    (∀ c ∈ ['1'], isAlphanumeric c = true) ∧
      source = "export const ".toList ++ ['1'] ++ " = \x7b\n\x7d".toList ∧
      (scan ⟨true, true, .plain "  ".toList⟩ source).value = ⟨[], [⟨.constant, source, none, 1⟩], [], none⟩ ∧
      (scan ⟨true, true, .plain "  ".toList⟩ source).value ≠
        ⟨[], [⟨.constant, rendered, none, 1⟩], [], none⟩ := by
  intro source rendered
  have kept : (scan ⟨true, true, .plain "  ".toList⟩ source).value =
      ⟨[], [⟨.constant, source, none, 1⟩], [], none⟩ := by decide +kernel
  have other : source ≠ rendered := by decide
  refine ⟨by decide, by decide, kept, ?_⟩
  rw [kept]
  simpa using other

end Scan

end Ambient
