import Ambient.Proofs.Balance
import Ambient.Proofs.Composition
import Ambient.Proofs.Forms
import Ambient.Proofs.Lookahead
import Ambient.Proofs.Mirroring
import Ambient.Proofs.Opening

/-!
Interfaces in ambient form. The form keeps the name and the member lines and only indents the lines
anew: written a second time it finds the same brace, the same lines and the same levels
(`ambient_reindents`).
-/

namespace Ambient

/-! ### Lines that are not blank -/

/-- The lines that are not blank, trimmed. -/
def solidLines (ls : List Text) : List Text := (ls.map trim).filter (· != [])

theorem solidLines_cons (l : Text) (ls : List Text) :
    solidLines (l :: ls) = (if trim l = [] then [] else [trim l]) ++ solidLines ls := by
  rw [solidLines, List.map_cons, List.filter_cons, solidLines]
  by_cases blank : trim l = []
  · simp [blank]
  · simp [blank]

theorem mem_solidLines {ls : List Text} {l : Text} (h : l ∈ solidLines ls) :
    ∃ m ∈ ls, l = trim m ∧ l ≠ [] := by
  obtain ⟨inside, solid⟩ := List.mem_filter.1 h
  obtain ⟨m, member, rfl⟩ := List.mem_map.1 inside
  exact ⟨m, member, rfl, by simpa using solid⟩

/-- Levels are those of the lines that are not blank. -/
theorem levels_congr {ls ms : List Text} (same : solidLines ls = solidLines ms) (level : Int) :
    Nesting.levels level ls = Nesting.levels level ms := by
  have read (ls : List Text) : Nesting.levels level ls =
      Nesting.levelsFrom level 0 (tokens (joinLines (solidLines ls))) (solidLines ls) := rfl
  rw [read, read, same]

theorem levels_snd (level : Int) (ls : List Text) :
    (Nesting.levels level ls).map (·.2) = solidLines ls := levelsFrom_snd level 0 _ _

/-- Without a line the joined text is one blank line. -/
theorem solidLines_lines_joinLines {ls : List Text} (flat : ∀ l ∈ ls, '\n' ∉ l) :
    solidLines (lines (joinLines ls)) = solidLines ls := by
  by_cases none : ls = []
  · subst none
    rfl
  · rw [lines, joinLines, pieces_joinPieces none flat]

namespace Interface

/-! ### The opening line -/

theorem suffix_of_afterSpaced? {w t r : Text} (h : afterSpaced? w t = some r) : r <:+ t := by
  obtain ⟨b, rest, rfl, -, rfl⟩ := afterSpaced?_eq_some h
  exact (List.dropWhile_suffix _).trans ⟨w ++ [b], by simp⟩

theorem header_suffix (first : Text) : header first <:+ first := by
  unfold header
  cases found : (afterDeclare? first).bind (afterSpaced? "interface".toList) with
  | none => exact List.suffix_rfl
  | some r =>
    obtain ⟨u, declared, word⟩ := Option.bind_eq_some_iff.1 found
    obtain ⟨v, exported, rfl⟩ := Option.map_eq_some_iff.1 declared
    have skipped : skipSpaced "declare".toList v <:+ v := by
      rw [skipSpaced]
      cases read : afterSpaced? "declare".toList v with
      | none => exact List.suffix_rfl
      | some r => exact suffix_of_afterSpaced? read
    exact ((suffix_of_afterSpaced? word).trans skipped).trans (suffix_of_afterSpaced? exported)

/-- The opening line starts with no blank. -/
theorem trimLeft_opening (t : Text) : trimLeft (opening t) = opening t := by
  unfold opening header
  cases found : (afterDeclare? (trim ((lines (trim t)).headD []))).bind
      (afterSpaced? "interface".toList) with
  | none => exact trimLeft_trim _
  | some r =>
    obtain ⟨u, -, word⟩ := Option.bind_eq_some_iff.1 found
    obtain ⟨b, rest, -, -, rfl⟩ := afterSpaced?_eq_some word
    exact trimLeft_trimLeft rest

theorem flat_opening (t : Text) : '\n' ∉ opening t := by
  obtain ⟨first, more, split⟩ := List.exists_cons_of_ne_nil (pieces_ne_nil '\n' (trim t))
  have flat : '\n' ∉ first := not_mem_of_mem_pieces (split ▸ List.mem_cons_self)
  have opened : opening t = header (trim first) := by
    rw [opening, lines, split, List.headD_cons]
  intro feed
  rw [opened] at feed
  exact flat (mem_of_mem_trim ((header_suffix _).subset feed))

/-- The name is on the opening line. -/
theorem flat_name (t : Text) (brace : Nat) : '\n' ∉ trim ((opening t).take brace) := fun feed =>
  flat_opening t ((List.take_sublist _ _).subset (mem_of_mem_trim feed))

/-! ### The members -/

/-- No member goes on over the end of a line. -/
theorem flat_members {t : Text} {brace : Nat}
    (found : Nesting.find? true ['{'] 0 (opening t) = some brace) :
    ∀ m ∈ (parts (lines (trim t))).2, '\n' ∉ m := by
  have flat : '\n' ∉ remainder t brace := fun feed =>
    flat_opening t ((List.drop_suffix _ _).subset feed)
  rw [parts_of_found found]
  intro m member feed
  split at member
  · obtain ⟨chunk, part, member⟩ := List.mem_flatMap.1 member
    have inside := mem_of_mem_split part (mem_of_mem_split member feed)
    cases closed : beforeLast? '}' (remainder t brace) with
    | none =>
      rw [closed] at inside
      exact flat inside
    | some front =>
      rw [closed] at inside
      obtain ⟨back, split⟩ := Path.exists_of_beforeLast? closed
      exact flat (split ▸ List.mem_append_left _ inside)
  · rcases List.mem_append.1 member with first | later
    · split at first
      · cases first
      · exact flat (List.mem_singleton.1 first ▸ feed)
    · have line : m ∈ lines (trim t) := by
        simp only [interior] at later
        split at later
        · exact List.mem_of_mem_drop ((List.dropLast_sublist _).subset later)
        · exact List.mem_of_mem_drop later
      exact not_mem_of_mem_pieces line feed

/-- The members as they are written, each on its line. -/
def layout (unit : Text) (members : List Text) : Text :=
  joinLines ((Nesting.levels 1 members).map fun p => memberLine unit p.1 p.2)

section
variable {unit : Text} (spaces : ∀ c ∈ unit, isSpace c = true)
include spaces

/-- A member is written behind blanks. -/
theorem exists_memberLine (level : Nat) (member : Text) :
    ∃ w, memberLine unit level member = w ++ member ∧ ∀ c ∈ w, isSpace c = true := by
  have indented : ∀ c ∈ indentation unit level, isSpace c = true := fun c inside =>
    spaces c (mem_of_mem_indentation inside)
  unfold memberLine
  split
  · refine ⟨indentation unit level ++ [' '], by simp, fun c inside => ?_⟩
    rcases List.mem_append.1 inside with front | space
    · exact indented c front
    · rw [List.mem_singleton.1 space]
      decide
  · exact ⟨indentation unit level, rfl, indented⟩

theorem trim_memberLine (level : Nat) (member : Text) :
    trim (memberLine unit level member) = trim member := by
  obtain ⟨w, written, space⟩ := exists_memberLine spaces level member
  have blank : ∀ c ∈ w, isBlank c = true := fun c inside => by
    have both := space c inside
    simp only [isSpace, Bool.and_eq_true] at both
    exact both.1
  rw [written, trim, trimLeft, List.dropWhile_append_of_pos blank]
  rfl

theorem flat_memberLine (level : Nat) {member : Text} (flat : '\n' ∉ member) :
    '\n' ∉ memberLine unit level member := by
  obtain ⟨w, written, space⟩ := exists_memberLine spaces level member
  rw [written]
  intro feed
  rcases List.mem_append.1 feed with front | inside
  · exact absurd (space '\n' front) (by decide)
  · exact flat inside

/-- Laying out members changes no line but its indentation. -/
theorem solidLines_layout (members : List Text) (flat : ∀ m ∈ members, '\n' ∉ m) :
    solidLines (lines (layout unit members)) = solidLines members := by
  have solid : ∀ p ∈ Nesting.levels 1 members, ∃ m ∈ members, p.2 = trim m ∧ p.2 ≠ [] := by
    intro p member
    exact mem_solidLines (levels_snd 1 members ▸ List.mem_map_of_mem member)
  have flatLines : ∀ l ∈ (Nesting.levels 1 members).map fun p => memberLine unit p.1 p.2,
      '\n' ∉ l := by
    intro l member
    obtain ⟨p, leveled, rfl⟩ := List.mem_map.1 member
    obtain ⟨m, inside, text, -⟩ := solid p leveled
    exact flat_memberLine spaces p.1 fun feed => flat m inside (mem_of_mem_trim (text ▸ feed))
  have trimmed : ((Nesting.levels 1 members).map fun p => memberLine unit p.1 p.2).map trim =
      solidLines members := by
    rw [← levels_snd 1, List.map_map]
    refine List.map_congr_left fun p member => ?_
    obtain ⟨m, -, text, -⟩ := solid p member
    rw [Function.comp_apply, trim_memberLine spaces, text, trim_trim]
  rw [layout, solidLines_lines_joinLines flatLines, solidLines, trimmed, solidLines, List.filter_filter]
  simp

end

/-! ### The form of a form -/

/-- The opening line in ambient form. -/
def firstLine (name : Text) : Text := "export declare interface ".toList ++ (name ++ [' ', '{'])

theorem firstLine_eq (name : Text) :
    firstLine name = "export declare interface ".toList ++ (name ++ [' ', '{']) := rfl

theorem header_firstLine (name : Text) :
    header (firstLine name) = trimLeft (name ++ [' ', '{']) := rfl

theorem ambient_lines (unit t : Text) : ambient unit t =
    firstLine (parts (lines (trim t))).1 ++ '\n' ::
      (layout unit (parts (lines (trim t))).2 ++ '\n' :: ['}']) := by
  have words : " \x7b\n".toList = [' ', '{'] ++ ['\n'] := rfl
  have closing : "\n\x7d".toList = '\n' :: ['}'] := rfl
  rw [ambient_eq, firstLine_eq, words, closing, layout]
  simp only [List.append_assoc, List.cons_append, List.nil_append]

theorem trim_ambient (unit t : Text) : trim (ambient unit t) = ambient unit t := by
  have last : (ambient unit t).getLast? = some '}' := by
    rw [ambient_lines, List.getLast?_append, List.getLast?_cons, List.getLast?_append]
    rfl
  exact trim_of_ends (c := 'e') (by rw [ambient_lines, firstLine_eq]; rfl) last (by decide)
    (by decide)

/-- The lines of an interface in ambient form. -/
theorem lines_ambient (unit : Text) {t : Text} {brace : Nat}
    (found : Nesting.find? true ['{'] 0 (opening t) = some brace) :
    lines (ambient unit t) = firstLine (trim ((opening t).take brace)) ::
      (lines (layout unit (parts (lines (trim t))).2) ++ [['}']]) := by
  have named : (parts (lines (trim t))).1 = trim ((opening t).take brace) := by
    rw [parts_of_found found]
  have flatFirst : '\n' ∉ firstLine (trim ((opening t).take brace)) := by
    rw [firstLine_eq]
    simp [flat_name]
  rw [ambient_lines, named, lines, pieces_append flatFirst, pieces_join,
    pieces_of_free (t := ['}']) (by decide)]
  rfl

/-- The name starts the opening line, and only blanks stand between it and the brace. -/
theorem exists_blanks_before_brace {t : Text} {brace : Nat}
    (found : Nesting.find? true ['{'] 0 (opening t) = some brace) :
    ∃ before w, (opening t).take brace = before ∧ trim before = trimRight before ∧
      opening t = trimRight before ++ (w ++ '{' :: remainder t brace) ∧
      brace = (trimRight before ++ w).length ∧ ∀ c ∈ w, isBlank c = true := by
  obtain ⟨before, taken⟩ : ∃ before, (opening t).take brace = before := ⟨_, rfl⟩
  have split : opening t = before ++ '{' :: remainder t brace := taken ▸ split_of_find? found
  have place : brace = before.length := by
    obtain ⟨-, -, inside, -⟩ := Nesting.find?_hit found
    rw [← taken, List.length_take]
    omega
  have left : trimLeft before = before := by
    cases first : before.head? with
    | none => rw [List.head?_eq_none_iff.1 first]; rfl
    | some c =>
      refine trimLeft_of_head first (head_trimLeft_solid (t := opening t) ?_)
      rw [trimLeft_opening, split, List.head?_append, first]
      rfl
  obtain ⟨w, blank, whole⟩ := exists_trimRight_append before
  refine ⟨before, w, taken, by rw [trim, left], ?_, by rw [place, ← whole], blank⟩
  conv => lhs; rw [split, whole]
  rw [List.append_assoc]

/-- The brace of the form stands behind the name and one blank, at the end of its line. -/
theorem exists_brace_behind_name {t : Text} {brace : Nat}
    (found : Nesting.find? true ['{'] 0 (opening t) = some brace) :
    let name := trim ((opening t).take brace)
    let first := trimLeft (name ++ [' ', '{'])
    ∃ n, Nesting.find? true ['{'] 0 first = some n ∧ trim (first.take n) = name ∧
      first.drop (n + 1) = [] := by
  obtain ⟨before, w, taken, named, split, place, blank⟩ := exists_blanks_before_brace found
  rw [taken]
  intro name first
  by_cases empty : name = []
  · have alone : first = ['{'] := by
      rw [show first = trimLeft (name ++ [' ', '{']) from rfl, empty]
      rfl
    rw [alone, empty]
    exact ⟨0, by decide +kernel, rfl, rfl⟩
  · have cut : first = name ++ [' ', '{'] := by
      rw [show first = trimLeft (trim before ++ [' ', '{']) from rfl, named,
        trimLeft_trimRight_append empty]
    have flat : '\n' ∉ w := fun feed =>
      flat_opening t (split ▸ List.mem_append_right _ (List.mem_append_left _ feed))
    have solid : ∀ c ∈ (trimRight before).getLast?, isBlank c = false := by
      intro c last
      obtain ⟨d, known, solid⟩ := getLast?_trimRight fun none => empty (named.trans none)
      exact Option.some.inj (known.symm.trans last) ▸ solid
    rw [split, place] at found
    have again := Nesting.find?_cut solid blank flat found
    rw [← show name = trimRight before from named] at again
    refine ⟨name.length + 1, cut ▸ again, ?_, ?_⟩
    · rw [cut, List.take_length_add_append]
      exact (trim_append_blank (w := [' ']) (by decide) name).trans (trim_trim before)
    · rw [cut, Nat.add_assoc, List.drop_length_add_append]
      rfl

/-- The form has the name and the members of the interface, each on its line. -/
theorem parts_ambient {unit t : Text} {brace : Nat}
    (found : Nesting.find? true ['{'] 0 (opening t) = some brace) :
    parts (lines (trim (ambient unit t))) = (trim ((opening t).take brace),
      lines (layout unit (parts (lines (trim t))).2)) := by
  let name := trim ((opening t).take brace)
  have spelled := lines_ambient unit found
  have trimmed : trim (firstLine name) = firstLine name := by
    have last : (firstLine name).getLast? = some '{' := by
      rw [firstLine_eq, ← List.append_assoc, List.getLast?_append]
      rfl
    exact trim_of_ends (c := 'e') (by rw [firstLine_eq]; rfl) last (by decide) (by decide)
  have opened : opening (ambient unit t) = trimLeft (name ++ [' ', '{']) := by
    rw [opening, trim_ambient, spelled, List.headD_cons, trimmed, header_firstLine]
  obtain ⟨n, behind, named, ended⟩ := exists_brace_behind_name found
  rw [← opened] at behind named ended
  have several : (lines (trim (ambient unit t))).length ≠ 1 := by
    rw [trim_ambient, spelled]
    simp
  rw [parts_of_found behind, if_neg several, named, remainder, ended, trim_ambient, spelled,
    Canonical.interior_concat]
  rfl

/-- **Writing an interface in ambient form indents its lines anew and changes nothing else.** The
form of the form is the form, and the body of an interface on several lines holds what stands behind
the brace and the lines of the interior, in order. -/
theorem ambient_reindents {unit t : Text} {brace : Nat} (spaces : ∀ c ∈ unit, isSpace c = true)
    (found : Nesting.find? true ['{'] 0 (opening t) = some brace) :
    ambient unit (ambient unit t) = ambient unit t ∧
    (1 < (lines (trim t)).length →
      solidLines ((lines (ambient unit t)).drop 1).dropLast =
        solidLines (remainder t brace :: interior (lines (trim t)))) := by
  have kept := solidLines_layout spaces _ (flat_members found)
  refine ⟨?_, fun several => ?_⟩
  · have same : layout unit (lines (layout unit (parts (lines (trim t))).2)) =
        layout unit (parts (lines (trim t))).2 := by
      rw [layout, levels_congr kept, ← layout]
    rw [ambient_lines unit (ambient unit t), parts_ambient found, same, ambient_lines unit t,
      parts_of_found found]
  · rw [lines_ambient unit found, List.drop_succ_cons, List.drop_zero, List.dropLast_concat,
      kept, parts_of_found found, if_neg (by omega), solidLines_cons]
    by_cases blank : trim (remainder t brace) = []
    · rw [if_pos blank, if_pos blank]
      rfl
    · rw [if_neg blank, if_neg blank, List.singleton_append, solidLines_cons, if_neg blank]

/-- An interface with braces in its type parameters and in a literal before its own brace, and a
member behind it. -/
theorem form_of_nested_interface :
    let t : Text :=
      "export interface A<B extends \x7b c: '\x7b' \x7d> \x7b d: \x7b\n* e\n\x7d;\n\n f: 1\n \x7d".toList
    let unit : Text := ['\t']
    (∀ c ∈ unit, isSpace c = true) ∧ Nesting.find? true ['{'] 0 (opening t) = some 24 ∧
      1 < (lines (trim t)).length ∧ ambient unit (ambient unit t) = ambient unit t ∧
      solidLines ((lines (ambient unit t)).drop 1).dropLast =
        ["d: \x7b", "* e", "\x7d;", "f: 1"].map String.toList := by
  intro t unit
  have spaces : ∀ c ∈ unit, isSpace c = true := by decide
  have found : Nesting.find? true ['{'] 0 (opening t) = some 24 := by decide +kernel
  have several : 1 < (lines (trim t)).length := by decide +kernel
  have body : solidLines (remainder t 24 :: interior (lines (trim t))) =
      ["d: \x7b", "* e", "\x7d;", "f: 1"].map String.toList := by decide +kernel
  obtain ⟨again, kept⟩ := ambient_reindents spaces found
  exact ⟨spaces, found, several, again, (kept several).trans body⟩

end Interface

end Ambient
