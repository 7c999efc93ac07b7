import Ambient.Proofs.Composition
import Ambient.Proofs.GatheredText
import Ambient.Proofs.Opening
import Mathlib.Data.List.Infix

/-!
Unions with a member to a line. Whether the alias goes on is read off the ends of lines, comments
included: a comment line is part of it where the line above ends with a sign, and ends it elsewhere;
the member lines below it are lost then.
-/

namespace Ambient

/-! ### Lines that go on -/

/-- The line ends with a sign after which an alias goes on, be it in a comment. -/
def endsOpen (l : Text) : Bool := endsWithAny Statement.trailingSigns (trimRight l)

/-- An alias whose brackets are closed goes on from a line to the next one. -/
def Continued (l next : Text) : Prop :=
  endsOpen l = true ∨ startsWithAny Statement.leadingSigns (trim next) = true

instance (l next : Text) : Decidable (Continued l next) := inferInstanceAs (Decidable (_ ∨ _))

/-- A line of an alias by itself: not blank, with its brackets closed, and no default export. -/
structure AliasLine (l : Text) : Prop where
  closed : Closed l
  paired : bracketBalance l = 0
  solid : trim l ≠ []
  quiet : LineKind.classify (trim l) ≠ .defaultExport

namespace Scan

theorem endsWithAny_gatheredText (ls : List Text) {last : Text} (solid : trim last ≠ []) :
    endsWithAny Statement.trailingSigns (gatheredText (ls ++ [last])) = endsOpen last := by
  have signs : ∀ mark ∈ Statement.trailingSigns, ∀ c ∈ mark, isBlank c = false := by decide
  rw [endsOpen, endsWithAny, endsWithAny, List.any_eq, List.any_eq]
  refine decide_eq_decide.2 (exists_congr fun mark => and_congr_right fun known => ?_)
  rw [endsWith_gatheredText (signs mark known) ls solid]

theorem balanced_of_aliasLines {ls : List Text} (h : ∀ l ∈ ls, AliasLine l) :
    bracketBalance (gatheredText ls) = 0 := by
  rw [bracketBalance_gatheredText fun l member => (h l member).closed,
    sum_of_paired fun l member => (h l member).paired]

/-- What a line goes on to is told by that line and the next one. -/
theorem goesOn_of_continued {first : Text} {more : List Text}
    (sound : ∀ l ∈ first :: more.dropLast, AliasLine l) (h : (first :: more).IsChain Continued)
    (p : List Text) (l : Text) (isPrefix : p ++ [l] <+: more) : GoesOn (first :: p) l := by
  obtain ⟨q, prev, split⟩ : ∃ q prev, first :: p = q ++ [prev] :=
    ⟨_, _, (List.dropLast_append_getLast (List.cons_ne_nil first p)).symm⟩
  obtain ⟨rest, rfl⟩ := isPrefix
  rw [List.append_assoc, List.singleton_append,
    List.dropLast_append_of_ne_nil (List.cons_ne_nil l rest), ← List.cons_append, split] at sound
  rw [List.append_assoc, List.singleton_append, ← List.cons_append, split, List.append_assoc,
    List.singleton_append] at h
  rcases (List.isChain_append.1 h).2.1.rel_head? rfl with ends | leads
  · refine .inr (.inl ?_)
    rw [split, endsWithAny_gatheredText q (sound prev (by simp)).solid]
    exact ends
  · exact .inr (.inr leads)

/-- An alias is gathered as long as each line goes on to the next one. -/
theorem takes_continued {o : Options} (multiline : o.multiline = true) {first last : Text}
    {front : List Text} (opens : gathersAt o (trim first) = some (.declaration .typeAlias))
    (sound : ∀ l ∈ first :: front ++ [last], AliasLine l)
    (goesOn : (first :: front ++ [last]).IsChain Continued) (ends : endsOpen last = false) :
    Takes o (first :: front ++ [last]) .typeAlias (gatheredText (first :: front ++ [last])) := by
  have settles := (endsWithAny_gatheredText (first :: front) (sound last (by simp)).solid).trans ends
  have early : ∀ l ∈ first :: (front ++ [last]).dropLast, AliasLine l := by
    rw [List.dropLast_concat]
    exact fun l member => sound l (List.mem_append_left _ member)
  exact takes_alias_lines multiline opens (goesOn_of_continued early goesOn)
    (fun l member => (sound l (List.mem_cons_of_mem first member)).quiet) (balanced_of_aliasLines sound)
    settles

end Scan

/-! ### Unions -/

/-- A comment on a line of its own. -/
structure CommentLine where
  indent : Text
  body : Text
  blank : ∀ c ∈ indent, isSpace c = true
  inside : ¬ ['*', '/'] <:+: body ∧ '\n' ∉ body

def CommentLine.text (k : CommentLine) : Text :=
  k.indent ++ ("/** ".toList ++ (k.body ++ " */".toList))

/-- A member of a union on its line, with the comment lines above it and a comment behind it. -/
structure UnionMember where
  above : List CommentLine
  indent : Text
  type : Text
  /-- A gap, and the text behind the marks of the comment. -/
  remark : Option (Text × Text)
  blank : ∀ c ∈ indent, isSpace c = true
  written : '\n' ∉ type ∧ Written type
  paired : bracketBalance type = 0
  solid : type ≠ [] ∧ trim type = type
  ends : endsWithAny Statement.trailingSigns type = false
  remarked : ∀ r ∈ remark, (∀ c ∈ r.1, isSpace c = true) ∧ '\n' ∉ r.2

namespace UnionMember

def remarkText (m : UnionMember) : Text :=
  match m.remark with
  | none => []
  | some (gap, body) => gap ++ ("//".toList ++ body)

def line (m : UnionMember) : Text := m.indent ++ ("| ".toList ++ (m.type ++ m.remarkText))

/-- The member without its comments. -/
def bare (m : UnionMember) : UnionMember :=
  { m with above := [], remark := none, remarked := nofun }

def lines (m : UnionMember) : List Text := m.above.map CommentLine.text ++ [m.line]

end UnionMember

/-- A union with its last member apart. -/
structure Union where
  name : Word
  front : List UnionMember
  last : UnionMember

namespace Union

def members (u : Union) : List UnionMember := u.front ++ [u.last]

def opening (u : Union) : Text := "export type ".toList ++ (u.name.text ++ [' ', '='])

/-- The lines below the opening one. -/
def body (u : Union) : List Text := u.members.flatMap UnionMember.lines

def source (u : Union) : Text := joinLines (u.opening :: u.body)

/-- The union without its comments. -/
def bare (u : Union) : Union := ⟨u.name, u.front.map UnionMember.bare, u.last.bare⟩

/-- The ambient form of the opening line with the given lines below it. -/
def ambient (u : Union) (below : List Text) : Text :=
  joinLines (("export declare type ".toList ++ (u.name.text ++ [' ', '='])) :: below.map trimRight)

end Union

/-! ### The lines of a union -/

/-- A literal or a comment adds nothing to a balance. -/
theorem written_hidden {seg : Segment} (hidden : ∀ x ∈ seg.outline, x = none) :
    Written seg.text ∧ bracketBalance seg.text = 0 := by
  obtain ⟨written, shown⟩ := Written.of_segment seg
  rw [bracketBalance_eq, shown]
  exact ⟨written, Outline.depth_of_unmarked hidden⟩

theorem written_comment {body : Text} (inside : ¬ ['*', '/'] <:+: body) :
    Written ('/' :: '*' :: (body ++ ['*', '/'])) ∧
      bracketBalance ('/' :: '*' :: (body ++ ['*', '/'])) = 0 :=
  @written_hidden (.blockComment body inside) fun _ member => List.eq_of_mem_replicate member

theorem written_lineComment {body : Text} (inside : '\n' ∉ body) :
    Written ('/' :: '/' :: (body ++ ['\n'])) ∧ bracketBalance ('/' :: '/' :: (body ++ ['\n'])) = 0 :=
  @written_hidden (.lineComment body inside) fun _ member => List.eq_of_mem_replicate member

theorem bare_of_spaces {w : Text} (h : ∀ c ∈ w, isSpace c = true) : ∀ c ∈ w, isBare c = true :=
  fun c member => isBare_of_isDull (isDull_of_isSpace c (h c member))

theorem feedless_of_spaces {w : Text} (h : ∀ c ∈ w, isSpace c = true) : '\n' ∉ w :=
  fun member => absurd (h _ member) (by decide)

/-- An indented line starts, once trimmed, with its first sign. -/
theorem exists_trim_indented {indent : Text} (h : ∀ c ∈ indent, isSpace c = true) {c : Char}
    (solid : isBlank c = false) (r : Text) : ∃ r', trim (indent ++ c :: r) = c :: r' := by
  have blank : ∀ c ∈ indent, isBlank c = true := fun c member => by
    have space := h c member
    rw [isSpace, Bool.and_eq_true] at space
    exact space.1
  have left : trimLeft (indent ++ c :: r) = c :: r := by
    rw [trimLeft, List.dropWhile_append_of_pos blank]
    exact trimLeft_of_head rfl solid
  rw [trim, left]
  exact List.head?_eq_some_iff.1 (head?_trimRight rfl solid)

namespace CommentLine

theorem exists_trim_text (k : CommentLine) : ∃ r, trim k.text = '/' :: r :=
  exists_trim_indented k.blank (by decide) _

theorem aliasLine (k : CommentLine) : AliasLine k.text := by
  obtain ⟨r, trimmed⟩ := k.exists_trim_text
  have inside : ¬ ['*', '/'] <:+: '*' :: ' ' :: (k.body ++ [' ']) := by
    intro found
    rcases List.infix_cons_iff.1 found with ⟨_, same⟩ | found
    · simp at same
    · rcases List.infix_cons_iff.1 found with ⟨_, same⟩ | found
      · simp at same
      · rcases List.infix_concat_iff.1 found with ends | found
        · have last := ends.getLast (by simp)
          simp at last
        · exact k.inside.1 found
  have spelled : k.text = k.indent ++ '/' :: '*' :: ('*' :: ' ' :: (k.body ++ [' ']) ++ ['*', '/']) := by
    simp [text]
  obtain ⟨written, balance⟩ := written_comment inside
  have free : '\n' ∉ k.text := by
    have := feedless_of_spaces k.blank
    simp [text, this, k.inside.2]
  have indented := Written.of_bare (bare_of_spaces k.blank)
  refine ⟨closed_of_written free ?_, ?_, ?_, ?_⟩
  · exact spelled ▸ indented.append written
  · rw [spelled, indented.bracketBalance_append written, balance,
      bracketBalance_of_bare (bare_of_spaces k.blank)]
    rfl
  · rw [trimmed]
    exact List.cons_ne_nil _ _
  · rw [trimmed]
    rcases Scan.classify_of_slash r with kind | kind <;> rw [kind] <;> decide

end CommentLine

namespace UnionMember

theorem exists_trim_line (m : UnionMember) : ∃ r, trim m.line = '|' :: r :=
  exists_trim_indented m.blank (by decide) _

theorem leads (m : UnionMember) : startsWithAny Statement.leadingSigns (trim m.line) = true := by
  obtain ⟨r, trimmed⟩ := m.exists_trim_line
  rw [trimmed]
  rfl

theorem aliasLine (m : UnionMember) : AliasLine m.line := by
  obtain ⟨r, trimmed⟩ := m.exists_trim_line
  have front : ∀ c ∈ m.indent ++ "| ".toList, isBare c = true :=
    List.forall_mem_append.2 ⟨bare_of_spaces m.blank, by decide⟩
  have behind : '\n' ∉ m.remarkText ∧ Written (m.remarkText ++ ['\n']) ∧
      bracketBalance (m.remarkText ++ ['\n']) = 0 := by
    have remarked := m.remarked
    unfold remarkText
    cases kind : m.remark with
    | none => exact ⟨by simp, .of_bare (by decide), by decide +kernel⟩
    | some r =>
      obtain ⟨space, free⟩ := remarked r kind
      obtain ⟨written, balance⟩ := written_lineComment free
      have gap := bare_of_spaces space
      have spelled : r.1 ++ ("//".toList ++ r.2) ++ ['\n'] = r.1 ++ '/' :: '/' :: (r.2 ++ ['\n']) := by
        simp
      refine ⟨by simp [feedless_of_spaces space, free], spelled ▸ (Written.of_bare gap).append written, ?_⟩
      rw [spelled, (Written.of_bare gap).bracketBalance_append written, bracketBalance_of_bare gap, balance]
      rfl
  obtain ⟨free, written, balance⟩ := behind
  have spelled : m.line ++ ['\n'] =
      m.indent ++ "| ".toList ++ (m.type ++ (m.remarkText ++ ['\n'])) := by simp [line]
  have tail := m.written.2.append written
  refine ⟨⟨?_, ?_⟩, ?_, ?_, ?_⟩
  · simp [line, feedless_of_spaces m.blank, m.written.1, free]
  · exact spelled ▸ (Written.of_bare front).append tail
  · rw [← bracketBalance_feed, spelled, (Written.of_bare front).bracketBalance_append tail,
      m.written.2.bracketBalance_append written, m.paired, balance, bracketBalance_of_bare front]
    rfl
  · rw [trimmed]
    exact List.cons_ne_nil _ _
  · rw [(Scan.classify_of_leadingSign m.leads).1]
    decide

theorem endsOpen_bare (m : UnionMember) : endsOpen m.bare.line = false := by
  have right : trimRight m.type = m.type := by
    rw [← m.solid.2, trim, trimRight_trimRight]
  have spelled : m.bare.line = m.indent ++ "| ".toList ++ m.type := by simp [line, bare, remarkText]
  have kept : trimRight (m.indent ++ "| ".toList ++ m.type) = m.indent ++ "| ".toList ++ m.type := by
    rw [trimRight_append_of_ne_nil _ (right.symm ▸ m.solid.1), right]
  have signs : ∀ mark ∈ Statement.trailingSigns, ' ' ∉ mark := by decide
  rw [endsOpen, spelled, kept, ← m.ends, endsWithAny, endsWithAny, List.any_eq, List.any_eq]
  refine decide_eq_decide.2 (exists_congr fun mark => and_congr_right fun known => ?_)
  have foreign : ∀ c ∈ (m.indent ++ "| ".toList).getLast?, c ∉ mark := by
    intro c ends
    obtain rfl : ' ' = c := by simpa using ends
    exact signs mark known
  rw [endsWith, endsWith, List.isSuffixOf_iff_suffix, List.isSuffixOf_iff_suffix, isSuffix_append_iff foreign]

end UnionMember

namespace Union

theorem opening_facts (u : Union) : AliasLine u.opening ∧ trim u.opening = u.opening ∧
    ∀ keep style, Scan.gathersAt ⟨true, keep, style⟩ (trim u.opening) = some (.declaration .typeAlias) := by
  have split : u.opening = "export type ".toList ++ (u.name.text ++ [' ']) ++ ['='] := by
    unfold opening
    rw [List.append_assoc, List.append_assoc, List.singleton_append]
  have last : u.opening.getLast? = some '=' := split ▸ List.getLast?_concat
  have head : u.opening.head? = some 'e' := rfl
  have trimmed : trim u.opening = u.opening := trim_of_ends head last (by decide) (by decide)
  have bare : ∀ c ∈ u.opening, isBare c = true := by
    refine List.forall_mem_append.2 ⟨by decide, List.forall_mem_append.2 ⟨fun c inName => ?_, by decide⟩⟩
    exact isBare_of_isDull (isDull_of_isNameChar (u.name.all_chars c inName))
  have free : '\n' ∉ u.opening := by
    refine List.not_mem_append (by decide) (List.not_mem_append (fun inName => ?_) (by decide))
    exact absurd (u.name.all_chars _ inName) (by decide)
  have opens : DeclarationKind.opensAlias u.opening = true := by
    have behind : (afterDeclare? u.opening).bind (afterSpaced? "type".toList) =
        some (trimLeft (u.name.text ++ [' ', '='])) := rfl
    have first : (u.name.text ++ [' ', '=']).head? = some u.name.first := rfl
    rw [DeclarationKind.opensAlias, behind, trimLeft_of_head first (isBlank_of_isNameStart u.name.start)]
    exact u.name.start
  have detected := DeclarationKind.detect_of_opensAlias rfl opens
  have kind : LineKind.classify u.opening = .declaration :=
    DeclarationKind.classify_of_detect rfl (.inr (.inl detected))
  refine ⟨⟨closed_of_written free (.of_bare bare), bracketBalance_of_bare bare, ?_, ?_⟩, trimmed, ?_⟩
  · rw [trimmed]
    exact List.cons_ne_nil _ _
  · rw [trimmed, kind]
    decide
  · intro keep style
    rw [trimmed, Scan.gathersAt, kind]
    exact congrArg (some ∘ Target.declaration) detected

theorem body_eq (u : Union) : ∃ mid, u.body = mid ++ [u.last.line] :=
  ⟨u.front.flatMap UnionMember.lines ++ u.last.above.map CommentLine.text, by
    simp [body, members, UnionMember.lines]⟩

theorem aliasLines (u : Union) : ∀ l ∈ u.opening :: u.body, AliasLine l := by
  refine List.forall_mem_cons.2 ⟨u.opening_facts.1, fun l member => ?_⟩
  obtain ⟨m, -, inside⟩ := List.mem_flatMap.1 member
  rcases List.mem_append.1 inside with above | here
  · obtain ⟨k, -, rfl⟩ := List.mem_map.1 above
    exact k.aliasLine
  · exact List.mem_singleton.1 here ▸ m.aliasLine

theorem lines_source (u : Union) : lines u.source = u.opening :: u.body :=
  pieces_joinPieces (List.cons_ne_nil _ _) fun l member => (u.aliasLines l member).closed.1

/-- Without comments every line leads on the alias. -/
theorem continued_bare (u : Union) : (u.bare.opening :: u.bare.body).IsChain Continued := by
  have leads : ∀ l ∈ u.bare.body, startsWithAny Statement.leadingSigns (trim l) = true := by
    intro l member
    obtain ⟨m, known, inside⟩ := List.mem_flatMap.1 member
    have noComments : m.above = [] := by
      rcases List.mem_append.1 known with front | last
      · obtain ⟨k, -, rfl⟩ := List.mem_map.1 front
        rfl
      · rw [List.mem_singleton.1 last]
        rfl
    obtain rfl : l = m.line := by simpa [UnionMember.lines, noComments] using inside
    exact m.leads
  generalize u.bare.body = ls at leads
  generalize u.bare.opening = l
  induction ls generalizing l with
  | nil => exact .singleton l
  | cons m ls ih =>
    exact List.isChain_cons_cons.2 ⟨.inr (leads m List.mem_cons_self),
      ih (fun k member => leads k (List.mem_cons_of_mem m member)) m⟩

theorem ambientAlias_typed {r : Text} (h : trim ("export type ".toList ++ r) = "export type ".toList ++ r) :
    ambientAlias ("export type ".toList ++ r) = "export declare type ".toList ++ r := by
  have read : (afterExport? ("export type ".toList ++ r)).bind (after? "type".toList) = some (' ' :: r) :=
    rfl
  have joined : "export declare type ".toList = "export declare type".toList ++ [' '] := by decide
  have ends : wordEnd (' ' :: r) = true := rfl
  simp only [ambientAlias, h, read, ends, ↓reduceIte, joined, List.append_assoc, List.singleton_append]

/-- The ambient form of an alias over lines. -/
theorem ambientAlias_gatheredText (u : Union) (front : List Text) {last : Text} (solid : trim last ≠ []) :
    ambientAlias (Scan.gatheredText (u.opening :: front ++ [last])) = u.ambient (front ++ [last]) := by
  obtain ⟨opening, trimmed, -⟩ := u.opening_facts
  have below : (front ++ [last]).map trimRight ≠ [] := by simp
  let rest := u.name.text ++ [' ', '='] ++ ['\n'] ++ joinLines ((front ++ [last]).map trimRight)
  have whole (word : Text) : joinLines ((word ++ (u.name.text ++ [' ', '='])) :: (front ++ [last]).map trimRight) =
      word ++ rest := by
    simp only [rest, joinLines, joinPieces_cons_of_ne_nil '\n' _ below, List.append_assoc]
  have spelled : Scan.gatheredText (u.opening :: front ++ [last]) = "export type ".toList ++ rest := by
    rw [Scan.gatheredText_eq front opening.solid solid, trimmed]
    exact whole _
  have same := trim_trim (joinLines ((u.opening :: front ++ [last]).map trimRight))
  rw [← Scan.gatheredText, spelled] at same
  rw [spelled, ambientAlias_typed same]
  exact (whole _).symm

/-- The members stand in the ambient form in order. -/
theorem ambient_holds (u : Union) :
    HoldsInOrder (u.members.map fun m => trim m.line) (u.ambient u.body) := by
  have all : HoldsInOrder (u.body.map trim) (joinLines (u.body.map trimRight)) := .of_lines fun l _ => by
    obtain ⟨w, -, split⟩ := exists_trimLeft_append (trimRight l)
    rw [trimLeft_trimRight] at split
    exact ⟨w, [], by rw [List.append_nil, ← split]⟩
  have some : List.Sublist (u.members.map fun m => trim m.line) (u.body.map trim) := by
    rw [body]
    induction u.members with
    | nil => exact List.Sublist.slnil
    | cons m ms ih =>
      rw [List.map_cons, List.flatMap_cons, List.map_append, ← List.singleton_append]
      refine List.Sublist.append ?_ ih
      simp [UnionMember.lines]
  obtain ⟨mid, below⟩ := u.body_eq
  rw [ambient, joinLines, joinPieces_cons_of_ne_nil '\n' _ (by rw [below]; simp)]
  exact (all.of_sublist some).behind _

end Union

namespace Scan

section
variable (keep : Bool) (unit : Text) (u : Union)

/-- The scanner gathers the lines of a union up to a line that does not go on. -/
theorem takes_union {front : List Text} {last : Text}
    (inside : u.opening :: front ++ [last] <+: u.opening :: u.body)
    (goesOn : (u.opening :: front ++ [last]).IsChain Continued) (ends : endsOpen last = false) :
    Takes ⟨true, keep, .plain unit⟩ (u.opening :: front ++ [last]) .typeAlias
        (gatheredText (u.opening :: front ++ [last])) ∧
      record ⟨true, keep, .plain unit⟩ .start .typeAlias (gatheredText (u.opening :: front ++ [last])) 0 =
        ⟨.typeAlias, u.ambient (front ++ [last]), none, 1⟩ := by
  have sound : ∀ l ∈ u.opening :: front ++ [last], AliasLine l := fun l member =>
    u.aliasLines l (inside.subset member)
  refine ⟨takes_continued rfl (u.opening_facts.2.2 keep (.plain unit)) sound goesOn ends, ?_⟩
  rw [record_start, DeclarationKind.form, Noted.value_pure,
    u.ambientAlias_gatheredText front (sound last (by simp)).solid]
  rfl

/-- A union whose lines go on, and the source below it. -/
theorem scan_union {rest : Text}
    (exports : ∀ l ∈ (lines rest).head?, startsWith "export".toList (trim l) = true)
    (goesOn : (u.opening :: u.body).IsChain Continued) (ends : endsOpen u.last.line = false) :
    (scan ⟨true, keep, .plain unit⟩ (u.source ++ '\n' :: rest)).value =
      (⟨[], [⟨.typeAlias, u.ambient u.body, none, 1⟩], [], none⟩ : Surface).join
        (u.opening :: u.body).length (scan ⟨true, keep, .plain unit⟩ rest).value := by
  obtain ⟨mid, below⟩ := u.body_eq
  have whole : u.opening :: u.body = u.opening :: mid ++ [u.last.line] := by rw [below, List.cons_append]
  have leads : ∀ l ∈ (lines rest).head?, startsWithAny Statement.leadingSigns (trim l) = false := by
    intro l first
    obtain ⟨r, word⟩ := List.isPrefixOf_iff_prefix.1 (exports l first)
    rw [← word]
    rfl
  obtain ⟨takes, becomes⟩ := takes_union keep unit u (whole ▸ List.prefix_rfl) (whole ▸ goesOn) ends
  rw [← whole, ← u.lines_source] at takes
  rw [scan_behind_takes takes leads, u.lines_source, whole, becomes, below]

/-- A sign at the end of the last line takes the line below into the alias. -/
theorem run_union_onto {below : Text} (goesOn : (u.opening :: u.body).IsChain Continued)
    (ends : endsOpen u.last.line = true) (quiet : LineKind.classify (trim below) ≠ .defaultExport) :
    let s := (run ⟨true, keep, .plain unit⟩ .start (SourceLine.numbered 0 (u.opening :: u.body ++ [below]))).value
    s.statement.map Statement.text = some (gatheredText (u.opening :: u.body ++ [below])) ∧
      s.surface = .empty := by
  intro s
  obtain ⟨mid, split⟩ := u.body_eq
  have chain : (u.opening :: (u.body ++ [below])).IsChain Continued := by
    rw [← List.cons_append]
    refine List.isChain_append.2 ⟨goesOn, .singleton below, fun l last m first => ?_⟩
    obtain rfl : below = m := by simpa using first
    rw [split, ← List.cons_append, List.getLast?_concat] at last
    exact .inl (Option.some.inj last ▸ ends)
  have sound : ∀ l ∈ u.opening :: (u.body ++ [below]).dropLast, AliasLine l := by
    rw [List.dropLast_concat]
    exact u.aliasLines
  have kinds : ∀ l ∈ u.body ++ [below], LineKind.classify (trim l) ≠ .defaultExport := by
    intro l member
    rcases List.mem_append.1 member with inside | here
    · exact (u.aliasLines l (List.mem_cons_of_mem _ inside)).quiet
    · exact List.mem_singleton.1 here ▸ quiet
  have value := run_alias_lines rfl (u.opening_facts.2.2 keep (.plain unit))
    (goesOn_of_continued sound chain) kinds (s := .start) nofun 0
  have text := (waitingAlias_text ⟨0, u.opening⟩ (SourceLine.numbered 1 (u.body ++ [below]))).1
  rw [List.map_cons, numbered_text] at text
  have same : s = _ := value
  rw [same]
  exact ⟨congrArg some text, rfl⟩

end

/-- **A union takes in the comments that stand where it goes on, and ends at any other.** Where every
comment line stands below a line that ends with a sign, and the last line does not, the record of the
union holds all members, and the source below reads as it does without the comments. Where the last line
does, the line below is taken into the alias. The first comment line below any line without a sign ends
the union, whose record then holds the lines above. -/
theorem union_gathered (keep : Bool) (unit : Text) (u : Union) {rest : Text}
    (exports : ∀ l ∈ (lines rest).head?, startsWith "export".toList (trim l) = true) :
    let scanned (u : Union) : Surface :=
      (scan ⟨true, keep, .plain unit⟩ (u.source ++ '\n' :: rest)).value
    ((u.opening :: u.body).IsChain Continued → endsOpen u.last.line = false →
      scanned u = (⟨[], [⟨.typeAlias, u.ambient u.body, none, 1⟩], [], none⟩ : Surface).join
        (u.opening :: u.body).length (scan ⟨true, keep, .plain unit⟩ rest).value ∧
      HoldsInOrder (u.members.map fun m => trim m.line) (u.ambient u.body) ∧
      (scanned u).declarations.map Declaration.kind =
        (scanned u.bare).declarations.map Declaration.kind) ∧
    ((u.opening :: u.body).IsChain Continued → endsOpen u.last.line = true → ∀ l ∈ (lines rest).head?,
      LineKind.classify (trim l) ≠ .defaultExport →
      let s := (run ⟨true, keep, .plain unit⟩ .start
        (SourceLine.numbered 0 (u.opening :: u.body ++ [l]))).value
      s.statement.map Statement.text = some (gatheredText (u.opening :: u.body ++ [l])) ∧
        s.surface = .empty) ∧
    ∀ front last next below, u.body = front ++ last :: next :: below →
      (u.opening :: front ++ [last]).IsChain Continued → ¬ Continued last next →
      ∃ later, (scanned u).declarations =
        ⟨.typeAlias, u.ambient (front ++ [last]), none, 1⟩ :: later := by
  intro scanned
  refine ⟨fun goesOn ends => ?_, fun goesOn ends l _ quiet => run_union_onto keep unit u goesOn ends quiet,
    fun front last next below split goesOn stops => ?_⟩
  · have value := scan_union keep unit u exports goesOn ends
    have bare := scan_union keep unit u.bare exports u.continued_bare u.last.endsOpen_bare
    refine ⟨value, u.ambient_holds, ?_⟩
    simp only [scanned, value, bare, Surface.join, List.map_append, List.map_map]
    rfl
  · have quiet : endsOpen last = false := by simpa using fun ends => stops (.inl ends)
    have leads : startsWithAny Statement.leadingSigns (trim next) = false := by
      simpa using fun leads => stops (.inr leads)
    have whole : u.opening :: u.body = u.opening :: front ++ [last] ++ next :: below := by simp [split]
    obtain ⟨takes, becomes⟩ := takes_union keep unit u (whole ▸ List.prefix_append _ _) goesOn quiet
    have source : lines (u.source ++ '\n' :: rest) =
        (u.opening :: front ++ [last]) ++ (next :: below ++ lines rest) := by
      rw [lines, pieces_join, ← lines, ← lines, u.lines_source, whole, List.append_assoc]
    obtain ⟨later, first⟩ := declarations_of_takes source takes fun _ l head => by
      obtain rfl : next = l := by simpa using head
      exact leads
    exact ⟨later, becomes ▸ first⟩

/-- A comment line below a sign, a sign that takes in the line below the union, and a comment line that
ends the union. -/
theorem union_gathered_thrice :
    let name : Word := ⟨'N', [], by decide, by decide⟩
    let plain : UnionMember := ⟨[], [' '], ['1'], none, by decide, ⟨by decide, .of_bare (by decide)⟩,
      by decide +kernel, by decide, by decide +kernel, nofun⟩
    let signed : UnionMember := { plain with
      remark := some ([' '], " or |".toList)
      remarked := by rintro r ⟨⟩; decide }
    let documented : UnionMember := { plain with above := [⟨[' '], "\x7b|".toList, by decide, by decide +kernel⟩] }
    let taken : Union := ⟨name, [signed], documented⟩
    let onto : Union := ⟨name, [], signed⟩
    let ended : Union := ⟨name, [plain], documented⟩
    let rest : Text := "export const x = 1".toList
    let o : Options := ⟨true, true, .plain "  ".toList⟩
    (∀ l ∈ (lines rest).head?, startsWith "export".toList (trim l) = true) ∧
    ((taken.opening :: taken.body).IsChain Continued ∧ endsOpen taken.last.line = false ∧
      (scan o (taken.source ++ '\n' :: rest)).value = ⟨[], [⟨.typeAlias,
        "export declare type N =\n | 1 // or |\n /** \x7b| */\n | 1".toList, none, 1⟩,
        ⟨.constant, "export declare const x: number;".toList, none, 5⟩], [], none⟩) ∧
    ((onto.opening :: onto.body).IsChain Continued ∧ endsOpen onto.last.line = true ∧
      LineKind.classify (trim rest) ≠ .defaultExport ∧
      (run o .start (SourceLine.numbered 0 (onto.opening :: onto.body ++ [rest]))).value.surface = .empty) ∧
    (ended.opening :: [] ++ [" | 1".toList]).IsChain Continued ∧
      ¬ Continued " | 1".toList " /** \x7b| */".toList ∧
      ∃ later, (scan o (ended.source ++ '\n' :: rest)).value.declarations =
        ⟨.typeAlias, "export declare type N =\n | 1".toList, none, 1⟩ :: later := by
  intro name plain signed documented taken onto ended rest o
  -- With the options written out, the runs below are the same terms and none of them is evaluated.
  have options : o = ⟨true, true, .plain "  ".toList⟩ := rfl
  clear_value o
  subst options
  have exports : ∀ l ∈ (lines rest).head?, startsWith "export".toList (trim l) = true := by
    intro l first
    obtain rfl : rest = l := Option.some.inj first
    decide
  have goesOn : (taken.opening :: taken.body).IsChain Continued := by decide +kernel
  have ends : endsOpen taken.last.line = false := by decide +kernel
  have goesOn' : (onto.opening :: onto.body).IsChain Continued := by decide +kernel
  have ends' : endsOpen onto.last.line = true := by decide +kernel
  have quiet : LineKind.classify (trim rest) ≠ .defaultExport := by decide +kernel
  have goesOn'' : (ended.opening :: [] ++ [" | 1".toList]).IsChain Continued := by decide +kernel
  have stops : ¬ Continued " | 1".toList " /** \x7b| */".toList := by decide +kernel
  have written : (⟨[], [⟨.typeAlias, taken.ambient taken.body, none, 1⟩], [], none⟩ : Surface).join
      (taken.opening :: taken.body).length (scan ⟨true, true, .plain "  ".toList⟩ rest).value = ⟨[], [⟨.typeAlias,
        "export declare type N =\n | 1 // or |\n /** \x7b| */\n | 1".toList, none, 1⟩,
        ⟨.constant, "export declare const x: number;".toList, none, 5⟩], [], none⟩ := by decide +kernel
  have written' : ended.ambient ([] ++ [" | 1".toList]) = "export declare type N =\n | 1".toList := by
    decide +kernel
  have whole := union_gathered true "  ".toList taken exports
  have whole' := union_gathered true "  ".toList onto exports
  have whole'' := union_gathered true "  ".toList ended exports
  obtain ⟨later, first⟩ := whole''.2.2 [] " | 1".toList " /** \x7b| */".toList [" | 1".toList]
    (by decide +kernel) goesOn'' stops
  exact ⟨exports, ⟨goesOn, ends, (whole.1 goesOn ends).1.trans written⟩,
    ⟨goesOn', ends', quiet, (whole'.2.1 goesOn' ends' rest rfl quiet).2⟩,
    goesOn'', stops, later, written' ▸ first⟩

/-- A comment line between two members cuts the union in two, and a sign at the end of the last comment
takes in the line below. -/
theorem union_changed_by_comments :
    let name : Word := ⟨'N', [], by decide, by decide⟩
    let first : UnionMember := ⟨[], [' '], "'a'".toList, none, by decide,
      ⟨by decide, [.quoted '\'' ['a'] (.inr rfl) (.plain (by decide) (by decide) (by decide) .nil)],
        by decide⟩, by decide +kernel, by decide, by decide +kernel, nofun⟩
    let last : UnionMember := ⟨[], [' '], ['b'], none, by decide, ⟨by decide, .of_bare (by decide)⟩,
      by decide +kernel, by decide, by decide +kernel, nofun⟩
    let parted : Union := ⟨name, [first],
      { last with above := [⟨[' '], ['c'], by decide, by decide⟩] }⟩
    let joined : Union := ⟨name, [first],
      { last with remark := some ([' '], " or |".toList), remarked := by rintro r ⟨⟩; decide }⟩
    let scanned (u : Union) : Surface :=
      (scan ⟨true, true, .plain "  ".toList⟩ (u.source ++ '\n' :: "export const x = 1".toList)).value
    parted.source = "export type N =\n | 'a'\n /** c */\n | b".toList ∧
      (scanned parted).declarations =
        [⟨.typeAlias, "export declare type N =\n | 'a'".toList, none, 1⟩,
          ⟨.constant, "export declare const x: number;".toList, some " /** c */".toList, 5⟩] ∧
      (∀ d ∈ (scanned parted).declarations,
        ¬ HoldsInOrder (parted.members.map fun m => trim m.line) d.text) ∧
      (scanned joined).declarations.map Declaration.kind ≠
        (scanned joined.bare).declarations.map Declaration.kind := by
  intro name first last parted joined scanned
  have spelled (u : Union) : scanned u =
      (scan ⟨true, true, .plain "  ".toList⟩ (u.source ++ '\n' :: "export const x = 1".toList)).value := rfl
  have held : List.Sublist ["| b".toList] (parted.members.map fun m => trim m.line) := by decide +kernel
  rw [spelled parted, spelled joined, spelled joined.bare]
  have decided : parted.source = "export type N =\n | 'a'\n /** c */\n | b".toList ∧
      (scan ⟨true, true, .plain "  ".toList⟩
        (parted.source ++ '\n' :: "export const x = 1".toList)).value.declarations =
          [⟨.typeAlias, "export declare type N =\n | 'a'".toList, none, 1⟩,
            ⟨.constant, "export declare const x: number;".toList, some " /** c */".toList, 5⟩] ∧
      (scan ⟨true, true, .plain "  ".toList⟩
        (joined.source ++ '\n' :: "export const x = 1".toList)).value.declarations.map
          Declaration.kind ≠
        (scan ⟨true, true, .plain "  ".toList⟩
          (joined.bare.source ++ '\n' :: "export const x = 1".toList)).value.declarations.map
            Declaration.kind := by
    decide +kernel
  obtain ⟨source, value, kinds⟩ := decided
  have absent : ∀ d ∈ (scan ⟨true, true, .plain "  ".toList⟩
      (parted.source ++ '\n' :: "export const x = 1".toList)).value.declarations,
        ¬ "| b".toList <:+: d.text := by
    rw [value]
    decide +kernel
  exact ⟨source, value, fun d member holds => absent d member (holds.of_sublist held).single, kinds⟩

end Scan

end Ambient
