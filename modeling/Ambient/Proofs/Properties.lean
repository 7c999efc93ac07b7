import Ambient.Declaration.Layout
import Ambient.Proofs.Datum
import Ambient.Proofs.Levels
import Ambient.Proofs.Opening
import Ambient.Proofs.Step

/-!
Object literals with one property to a line. The properties form a tree, written with its literals
as they are: quotes hide whatever brackets, colons and commas stand between them. Each line stands at
its depth in the tree (`lineLevels_lines`), the layout gives back the tree (`rendered_lines`), and
the type comes from the root alone (`commonKind_eq`).
-/

namespace Ambient

/-! ### Lines -/

/-- A line of an object literal up to what stands behind the colon. -/
def entry (key : Datum) (rest : Text) : Text := key.text ++ (": ".toList ++ rest)

/-- The comma that may stand at the end of a line. -/
def ending (comma : Bool) : Text := if comma then [','] else []

/-- What the scanner and the layout ask of a line inside an object literal. -/
structure IsMember (l : Text) : Prop where
  written : Written l
  first : ∃ c, l.head? = some c ∧ isBlank c = false ∧ c ≠ '/' ∧ c ≠ '*'
  last : ∃ c, l.getLast? = some c ∧ isBlank c = false
  unexported : afterExport? l = none

namespace IsMember

variable {l : Text}

theorem trim_eq (h : IsMember l) : trim l = l := by
  obtain ⟨-, ⟨c, head, solid, -⟩, ⟨e, last, solid'⟩, -⟩ := h
  exact trim_of_ends head last solid solid'

theorem ne_nil (h : IsMember l) : l ≠ [] := by
  obtain ⟨c, head, -⟩ := h.first
  rintro rfl
  cases head

theorem not_comment (h : IsMember l) : isCommentLine l = false ∧ startsWith "/*".toList l = false ∧
    LineKind.opensDoc l = false := by
  obtain ⟨c, head, -, slash, star⟩ := h.first
  obtain ⟨r, rfl⟩ := List.head?_eq_some_iff.1 head
  have apart : ('/' == c) = false ∧ ('*' == c) = false := by
    simpa using And.intro (Ne.symm slash) (Ne.symm star)
  simp [isCommentLine, LineKind.opensDoc, startsWithAny, startsWith, List.isPrefixOf, apart]

theorem not_default (h : IsMember l) : LineKind.classify l ≠ .defaultExport := by
  intro same
  have opens := DeclarationKind.classify_eq_default_iff.1 same
  rw [DeclarationKind.opensDefault, h.unexported] at opens
  cases opens

/-- No statement puts the line aside. -/
theorem not_diverted (h : IsMember l) (target : Target) : target.diverts l = false := by
  obtain ⟨-, block, doc⟩ := h.not_comment
  have kind : (LineKind.classify l == .comment) = false := by
    unfold LineKind.classify
    rw [if_neg (by simp [doc])]
    repeat' split
    all_goals rfl
  rw [Target.diverts, kind, block]
  exact Bool.and_false _

end IsMember

theorem marks_entry (key : Datum) {rest : Text} (h : Written rest) : Written (entry key rest) ∧
    marks (entry key rest) = marks key.text ++ some ':' :: none :: marks rest := by
  have colon : Written ": ".toList := .of_bare (by decide)
  have shown : marks ": ".toList = [some ':', none] := Written.marks_of_bare (by decide)
  refine ⟨key.written.1.append (colon.append h), ?_⟩
  rw [entry, key.written.1.marks_append (colon.append h), colon.marks_append h, shown]
  rfl

/-- What stands before the value adds nothing to a balance. -/
theorem balances_entry (key : Datum) {rest : Text} (h : Written rest) :
    bracketBalance (entry key rest) = bracketBalance rest ∧
      braceBalance (entry key rest) = braceBalance rest := by
  have split (o : Outline) : some ':' :: none :: o = [some ':', none] ++ o := rfl
  have depth : Outline.depth [some ':', none] = 0 ∧ Outline.braceDepth [some ':', none] = 0 := by decide
  constructor
  · rw [bracketBalance_eq, bracketBalance_eq, (marks_entry key h).2, Outline.depth_append, split,
      Outline.depth_append, Outline.depth_of_unmarked key.written.2, depth.1]
    omega
  · rw [braceBalance_eq, braceBalance_eq, (marks_entry key h).2, Outline.braceDepth_append, split,
      Outline.braceDepth_append, Outline.braceDepth_of_unmarked key.written.2, depth.2]
    omega

theorem closesFirst_entry (key : Datum) {rest : Text} (h : Written rest) :
    Outline.closesFirst (marks (entry key rest)) = false := by
  have nonempty : marks key.text ≠ [] := by
    intro none
    have length := length_marks key.text
    rw [none] at length
    exact key.ne_nil (List.length_eq_zero_iff.1 length.symm)
  obtain ⟨x, o, shown⟩ := List.exists_cons_of_ne_nil nonempty
  obtain rfl : x = none := key.written.2 x (shown ▸ List.mem_cons_self)
  rw [(marks_entry key h).2, shown]
  rfl

/-- The line is cut behind its key, whatever stands in the literals. -/
theorem splitColon?_entry (key : Datum) {rest : Text} (h : Written rest) :
    splitColon? (entry key rest) = some (key.text, ' ' :: rest) := by
  have found : (marks (entry key rest)).firstTop ':' 0 = some key.text.length := by
    rw [(marks_entry key h).2, Outline.firstTop_append, Outline.firstTop_of_unmarked _ _ key.written.2,
      Outline.depth_of_unmarked key.written.2, Option.none_or, length_marks]
    simp [Outline.firstTop]
  rw [splitColon?, find?_eq (by decide), found, Option.map_some, entry, List.take_left' rfl,
    ← List.drop_drop, List.drop_left' rfl]
  rfl

theorem head_entry (key : Datum) (rest : Text) :
    (entry key rest).head?.any (closers.contains ·) = false := by
  obtain ⟨⟨c, head, edge⟩, -⟩ := key.edges
  obtain ⟨r, text⟩ := List.head?_eq_some_iff.1 head
  have apart : ∀ d ∈ closers, isEdge d = false := by decide
  have other := not_mem_of_isEdge edge apart
  simp [entry, text, other]

theorem isMember_entry (key : Datum) {rest : Text} (written : Written rest) {c : Char}
    (last : rest.getLast? = some c) (solid : isBlank c = false) : IsMember (entry key rest) := by
  obtain ⟨⟨d, head, edge⟩, -⟩ := key.edges
  have apart : ∀ d ∈ ['/', '*'], isEdge d = false := by decide
  have other := not_mem_of_isEdge edge apart
  refine ⟨(marks_entry key written).1, ⟨d, ?_, isBlank_of_isEdge edge, ?_, ?_⟩, ⟨c, ?_, solid⟩,
    key.unexported (' ' :: rest)⟩
  · obtain ⟨r, text⟩ := List.head?_eq_some_iff.1 head
    rw [entry, text]
    rfl
  · rintro rfl
    exact other (by decide)
  · rintro rfl
    exact other (by decide)
  · rw [entry, List.getLast?_append, List.getLast?_append, last]
    rfl

/-! ### The tree -/

/-- Properties of an object literal, one to a line, in source order; a comma may stand behind each. -/
inductive Properties
  | nil
  | leaf (key value : Datum) (comma : Bool) (later : Properties)
  | node (key : Datum) (inside : Properties) (comma : Bool) (later : Properties)

namespace Properties

/-- The trimmed lines of the properties. -/
def lines : Properties → List Text
  | nil => []
  | leaf key value comma later => entry key (value.text ++ ending comma) :: later.lines
  | node key inside comma later =>
    entry key ['{'] :: (inside.lines ++ ('}' :: ending comma) :: later.lines)

/-- What each line adds to the balance. -/
def shifts : Properties → List Int
  | nil => []
  | leaf _ _ _ later => 0 :: later.shifts
  | node _ inside _ later => 1 :: (inside.shifts ++ (-1) :: later.shifts)

/-- The lines with their nesting levels, the outermost at the given one. -/
def leveled : Nat → Properties → List (Nat × Text)
  | _, nil => []
  | level, leaf key value comma later =>
    (level, entry key (value.text ++ ending comma)) :: leveled level later
  | level, node key inside comma later =>
    (level, entry key ['{']) ::
      (leveled (level + 1) inside ++ (level, '}' :: ending comma) :: leveled level later)

/-- The lines as they are laid out: the outermost properties at the given level, every value ended by
a semicolon. -/
def rendered (unit : Text) : Nat → Properties → List Text
  | _, nil => []
  | level, leaf key value _ later =>
    (indentation unit level ++ entry key (value.text ++ [';'])) :: rendered unit level later
  | level, node key inside _ later =>
    (indentation unit level ++ entry key ['{']) ::
      (rendered unit (level + 1) inside ++
        (indentation unit level ++ ['}', ';']) :: rendered unit level later)

/-- The kinds of the outermost values; an object is of no known kind. -/
def kinds : Properties → List ValueKind
  | nil => []
  | leaf _ value _ later => value.kind :: later.kinds
  | node _ _ _ later => .unknown :: later.kinds

/-- The kind that all outermost values share, if there is one. -/
def sharedKind (ps : Properties) : ValueKind :=
  match ps.kinds with
  | [] => .unknown
  | k :: ks => if ∀ j ∈ ks, j = k then k else .unknown

end Properties

/-! ### Single lines -/

theorem isNeutral_of_ending {comma : Bool} : ∀ c ∈ ending comma, isNeutral c = true := by
  cases comma <;> decide

theorem written_value (d : Datum) (comma : Bool) : Written (d.text ++ ending comma) :=
  d.written.1.append (.of_bare fun c member => isBare_of_isNeutral (isNeutral_of_ending c member))

theorem balances_value (d : Datum) (comma : Bool) : bracketBalance (d.text ++ ending comma) = 0 ∧
    braceBalance (d.text ++ ending comma) = 0 := by
  rw [bracketBalance_append_neutral isNeutral_of_ending, bracketBalance_eq,
    braceBalance_append_neutral isNeutral_of_ending, braceBalance_eq]
  exact ⟨Outline.depth_of_unmarked d.written.2, Outline.braceDepth_of_unmarked d.written.2⟩

theorem exists_last_value (d : Datum) (comma : Bool) :
    ∃ c, (d.text ++ ending comma).getLast? = some c ∧ isBlank c = false := by
  cases comma with
  | true => exact ⟨',', List.getLast?_concat, by decide⟩
  | false =>
    obtain ⟨-, c, last, edge⟩ := d.edges
    exact ⟨c, by rwa [ending, if_neg (by decide), List.append_nil], isBlank_of_isEdge edge⟩

theorem trim_value (d : Datum) (comma : Bool) : trim (d.text ++ ending comma) = d.text ++ ending comma := by
  obtain ⟨⟨c, head, edge⟩, -⟩ := d.edges
  obtain ⟨e, last, solid⟩ := exists_last_value d comma
  exact trim_of_ends (List.head?_append.trans (by rw [head]; rfl)) last (isBlank_of_isEdge edge) solid

theorem isMember_leaf (key value : Datum) (comma : Bool) :
    IsMember (entry key (value.text ++ ending comma)) := by
  obtain ⟨c, last, solid⟩ := exists_last_value value comma
  exact isMember_entry key (written_value value comma) last solid

theorem written_brace : Written ['{'] := .of_bracket (by decide)

theorem balances_brace : bracketBalance ['{'] = 1 ∧ braceBalance ['{'] = 1 := by
  rw [bracketBalance_eq, braceBalance_eq, Written.marks_of_bracket (by decide)]
  exact ⟨rfl, rfl⟩

theorem isMember_node (key : Datum) : IsMember (entry key ['{']) :=
  isMember_entry key written_brace rfl (by decide)

theorem close_facts (comma : Bool) : IsMember ('}' :: ending comma) ∧
    bracketBalance ('}' :: ending comma) = -1 ∧ braceBalance ('}' :: ending comma) = -1 ∧
    Outline.closesFirst (marks ('}' :: ending comma)) = true ∧
    renderMember ('}' :: ending comma) = ['}', ';'] := by
  have brace : Written ['}'] := .of_bracket (by decide)
  have bare : ∀ c ∈ ending comma, isBare c = true := by cases comma <;> decide
  have shown : marks ('}' :: ending comma) = some '}' :: (ending comma).map mark? := by
    rw [← List.singleton_append, brace.marks_append (.of_bare bare), Written.marks_of_bracket (by decide),
      Written.marks_of_bare bare]
    rfl
  have uncut : splitColon? ('}' :: ending comma) = none := by
    rw [splitColon?, find?_eq (by decide), shown]
    cases comma <;> rfl
  refine ⟨⟨brace.append (.of_bare bare), ⟨'}', rfl, by decide, by decide, by decide⟩, ?_, rfl⟩,
    ?_, ?_, ?_, ?_⟩
  · cases comma
    · exact ⟨'}', rfl, by decide⟩
    · exact ⟨',', rfl, by decide⟩
  · rw [bracketBalance_eq, shown]
    cases comma <;> rfl
  · rw [braceBalance_eq, shown]
    cases comma <;> rfl
  · rw [shown]
    rfl
  · rw [renderMember, uncut]
    cases comma <;> rfl

theorem endsWith_of_getLast {t : Text} {c d : Char} (last : t.getLast? = some c) (other : c ≠ d) :
    endsWith [d] t = false := by
  rw [endsWith, ← Bool.not_eq_true, List.isSuffixOf_iff_suffix]
  rintro ⟨front, rfl⟩
  rw [List.getLast?_concat] at last
  exact other (Option.some.inj last).symm

/-- A value ends with a semicolon, in place of its comma if it has one. -/
theorem terminate_value (d : Datum) (comma : Bool) :
    terminate (d.text ++ ending comma) = d.text ++ [';'] := by
  obtain ⟨-, c, last, edge⟩ := d.edges
  cases comma with
  | true =>
    have ended : endsWith [','] (d.text ++ ending true) = true :=
      List.isSuffixOf_iff_suffix.2 (List.suffix_append _ _)
    have dropped : (d.text ++ ending true).dropLast = d.text := List.dropLast_concat
    rw [terminate, if_pos ended, dropped, trimRight_of_getLast last (isBlank_of_isEdge edge)]
  | false =>
    have signs : ∀ s ∈ [',', ';', '{', '[', '('], isEdge s = false := by decide
    have unended (s : Char) (sign : s ∈ [',', ';', '{', '[', '(']) : endsWith [s] d.text = false :=
      endsWith_of_getLast last fun same => not_mem_of_isEdge edge signs (same ▸ sign)
    have open' : endsWithAny [[';'], ['{'], ['['], ['(']] d.text = false := by
      simp only [endsWithAny, List.any_cons, List.any_nil, unended ';' (by decide),
        unended '{' (by decide), unended '[' (by decide), unended '(' (by decide), Bool.or_false]
    rw [ending, if_neg (by decide), List.append_nil, terminate, unended ',' (by decide), open']
    rfl

theorem renderMember_entry (key : Datum) {rest : Text} (h : Written rest) :
    renderMember (entry key rest) = entry key (terminate (trim rest)) := by
  rw [renderMember, splitColon?_entry key h]
  simp only [key.trim_eq, trim_space]
  rw [entry, List.append_assoc]

theorem renderMember_leaf (key value : Datum) (comma : Bool) :
    renderMember (entry key (value.text ++ ending comma)) = entry key (value.text ++ [';']) := by
  rw [renderMember_entry key (written_value value comma), trim_value, terminate_value]

theorem renderMember_node (key : Datum) : renderMember (entry key ['{']) = entry key ['{'] := by
  rw [renderMember_entry key written_brace]
  rfl

namespace Property

/-- What is read of a line depends on its value alone. -/
theorem ofLine?_entry (key : Datum) {rest : Text} (member : IsMember (entry key rest))
    (written : Written rest) : (ofLine? (entry key rest)).map kind =
      some (.classify (trim (trimRightBy (· == ',') (trim rest)))) := by
  have solid : ¬(entry key rest = [] ∨ isCommentLine (entry key rest) = true) := by
    rw [not_or]
    exact ⟨member.ne_nil, by simp [member.not_comment.1]⟩
  simp only [ofLine?, member.trim_eq, if_neg solid, splitColon?_entry key written, trim_space,
    Option.map_some]

theorem ofLine?_leaf (key value : Datum) (comma : Bool) :
    (ofLine? (entry key (value.text ++ ending comma))).map kind = some value.kind := by
  obtain ⟨-, c, last, edge⟩ := value.edges
  have other : (c == ',') = false := by
    simpa using fun same : c = ',' => absurd edge (by rw [same]; decide)
  have alone : trimRightBy (· == ',') (ending comma) = [] := by cases comma <;> rfl
  have value' : trimRightBy (· == ',') (value.text ++ ending comma) = value.text := by
    rw [trimRightBy_append_of_getLast last other, alone, List.append_nil]
  rw [ofLine?_entry key (isMember_leaf key value comma) (written_value value comma), trim_value, value',
    value.trim_eq, value.classify_text]

theorem ofLine?_node (key : Datum) : (ofLine? (entry key ['{'])).map kind = some .unknown := by
  rw [ofLine?_entry key (isMember_node key) written_brace]
  decide

end Property

/-! ### The whole tree -/

namespace Properties

theorem isMember_lines (ps : Properties) : ∀ l ∈ ps.lines, IsMember l := by
  induction ps with
  | nil => exact nofun
  | leaf key value comma later ih =>
    exact List.forall_mem_cons.2 ⟨isMember_leaf key value comma, ih⟩
  | node key inside comma later ih ih' =>
    refine List.forall_mem_cons.2 ⟨isMember_node key, fun l member => ?_⟩
    rcases List.mem_append.1 member with member | member
    · exact ih l member
    · exact List.forall_mem_cons.2 ⟨(close_facts comma).1, ih'⟩ l member

/-- Lines add to both balances alike: the structure has no brackets but braces. -/
theorem balances_lines (ps : Properties) :
    ps.lines.map bracketBalance = ps.shifts ∧ ps.lines.map braceBalance = ps.shifts := by
  induction ps with
  | nil => exact ⟨rfl, rfl⟩
  | leaf key value comma later ih =>
    obtain ⟨brackets, braces⟩ := balances_entry key (written_value value comma)
    obtain ⟨none, none'⟩ := balances_value value comma
    simp only [lines, shifts, List.map_cons, brackets, braces, none, none', ih, and_self]
  | node key inside comma later ih ih' =>
    obtain ⟨brackets, braces⟩ := balances_entry key written_brace
    obtain ⟨-, close, close', -⟩ := close_facts comma
    simp only [lines, shifts, List.map_cons, List.map_append, brackets, braces, balances_brace, close,
      close',
      ih, ih', and_self]

theorem sum_shifts (ps : Properties) : ps.shifts.sum = 0 := by
  induction ps with
  | nil => rfl
  | leaf key value comma later ih => rw [shifts, List.sum_cons, ih]; rfl
  | node key inside comma later ih ih' =>
    rw [shifts, List.sum_cons, List.sum_append, List.sum_cons, ih, ih']
    rfl

/-- No line closes more than the lines before it have opened. -/
theorem sum_take_shifts (ps : Properties) (n : Nat) : 0 ≤ (ps.shifts.take n).sum := by
  induction ps generalizing n with
  | nil => simp [shifts]
  | leaf key value comma later ih =>
    cases n with
    | zero => simp
    | succ n =>
      have rest := ih n
      rw [shifts, List.take_succ_cons, List.sum_cons]
      omega
  | node key inside comma later ih ih' =>
    cases n with
    | zero => simp
    | succ n =>
      have inner := ih n
      rw [shifts, List.take_succ_cons, List.sum_cons, List.take_append, List.sum_append]
      cases beyond : n - inside.shifts.length with
      | zero =>
        rw [List.take_zero, List.sum_nil]
        omega
      | succ m =>
        have rest := ih' m
        have whole : inside.shifts.take n = inside.shifts := List.take_of_length_le (by omega)
        rw [whole, sum_shifts, List.take_succ_cons, List.sum_cons]
        omega

/-- **Each line stands at its depth in the tree.** -/
theorem lineLevels_lines (ps : Properties) (level : Nat) :
    lineLevels level ps.lines = ps.leveled level := by
  induction ps generalizing level with
  | nil => rfl
  | leaf key value comma later ih =>
    obtain ⟨brackets, -⟩ := balances_entry key (written_value value comma)
    obtain ⟨none, -⟩ := balances_value value comma
    rw [lines, leveled, lineLevels, closesFirst_entry key (written_value value comma), brackets, none,
      Int.add_zero, ih]
    rfl
  | node key inside comma later ih ih' =>
    obtain ⟨brackets, -⟩ := balances_entry key written_brace
    obtain ⟨-, close, -, closes, -⟩ := close_facts comma
    have sum : (inside.lines.map bracketBalance).sum = 0 := by
      rw [inside.balances_lines.1, inside.sum_shifts]
    have below : (level : Int) + 1 = (level + 1 : Nat) := by omega
    have back : ((level + 1 : Nat) : Int) + 0 + -1 = level := by omega
    have above : (((level + 1 : Nat) : Int) + 0 - 1).toNat = level := by omega
    rw [lines, leveled, lineLevels, closesFirst_entry key written_brace, brackets,
      balances_brace.1, below,
      lineLevels_append, sum, ih, lineLevels, closes, close, back, ih', if_pos rfl, above]
    rfl

/-- The layout of every line of the tree. -/
theorem rendered_lines (unit : Text) (ps : Properties) (level : Nat) :
    (ps.leveled level).map (fun (n, t) => indentation unit n ++ renderMember t) =
      ps.rendered unit level := by
  induction ps generalizing level with
  | nil => rfl
  | leaf key value comma later ih =>
    simp only [leveled, rendered, List.map_cons, ih, renderMember_leaf]
  | node key inside comma later ih ih' =>
    obtain ⟨-, -, -, -, close⟩ := close_facts comma
    simp only [leveled, rendered, List.map_cons, List.map_append, ih, ih', renderMember_node, close]

theorem level_le (ps : Properties) (level : Nat) : ∀ x ∈ ps.leveled level, level ≤ x.1 := by
  induction ps generalizing level with
  | nil => exact nofun
  | leaf key value comma later ih => exact List.forall_mem_cons.2 ⟨Nat.le_refl level, ih level⟩
  | node key inside comma later ih ih' =>
    refine List.forall_mem_cons.2 ⟨Nat.le_refl level, fun x member => ?_⟩
    rcases List.mem_append.1 member with member | member
    · exact Nat.le_of_succ_le (ih (level + 1) x member)
    · rcases List.mem_cons.1 member with rfl | member
      · exact Nat.le_refl level
      · exact ih' level x member

/-- The properties that count for the type are the outermost ones. -/
theorem kinds_outer (ps : Properties) :
    ((ps.leveled 1).filterMap fun (level, t) =>
      if level ≠ 1 ∨ t.head?.any (closers.contains ·) then none else Property.ofLine? t).map
        Property.kind = ps.kinds := by
  induction ps with
  | nil => rfl
  | leaf key value comma later ih =>
    obtain ⟨p, read, kind⟩ := Option.map_eq_some_iff.1 (Property.ofLine?_leaf key value comma)
    have first := head_entry key (value.text ++ ending comma)
    simp only [leveled, kinds, List.filterMap_cons, first, read, ne_eq, not_true_eq_false,
      Bool.false_eq_true, or_self, ↓reduceIte, List.map_cons, kind, ih]
  | node key inside comma later ih ih' =>
    obtain ⟨p, read, kind⟩ := Option.map_eq_some_iff.1 (Property.ofLine?_node key)
    have first := head_entry key ['{']
    have inner : ((inside.leveled (1 + 1)).filterMap fun (level, t) =>
        if level ≠ 1 ∨ t.head?.any (closers.contains ·) then none else Property.ofLine? t) = [] := by
      refine List.filterMap_eq_nil_iff.2 fun x member => if_pos (.inl ?_)
      have deep := level_le inside (1 + 1) x member
      omega
    have close : (some '}').any (closers.contains ·) = true := by decide
    simp only [leveled, kinds, List.filterMap_cons, List.filterMap_append, inner, first, read, ne_eq,
      not_true_eq_false, Bool.false_eq_true, or_self, ↓reduceIte, List.map_cons, kind, List.head?_cons,
      close, or_true, List.nil_append, ih']

/-- **One kind shared by all outermost properties is the kind of the object.** -/
theorem commonKind_eq {qs : List Property} {ps : Properties} (h : qs.map Property.kind = ps.kinds) :
    Property.commonKind qs = ps.sharedKind := by
  rw [Property.commonKind, h, sharedKind]
  cases ps.kinds with
  | nil => rfl
  | cons k ks =>
    rw [List.eraseDups_cons]
    simp only
    by_cases shared : ∀ j ∈ ks, j = k
    · have none : ks.filter (fun j => !j == k) = [] :=
        List.filter_eq_nil_iff.2 fun j member => by simp [shared j member]
      rw [if_pos shared, none]
      rfl
    · obtain ⟨j, member, other⟩ : ∃ j ∈ ks, j ≠ k := by simpa using shared
      have kept : ks.filter (fun j => !j == k) ≠ [] :=
        List.ne_nil_of_mem (List.mem_filter.2 ⟨member, by simpa using other⟩)
      obtain ⟨a, as, more⟩ := List.exists_cons_of_ne_nil kept
      rw [if_neg shared, more, List.eraseDups_cons]

end Properties

end Ambient
