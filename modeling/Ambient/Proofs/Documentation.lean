import Ambient.Proofs.Attachment
import Ambient.Proofs.Resting

/-!
A documentation block and the declaration behind it. The declaration takes the block together with
the comment lines that stand inside it, from the last line on that opens a block. Only a constant
sends lines of its own to the comment block; every other declaration takes the block as written.
-/

namespace Ambient

/-- A line that opens with `/**`, then lines that start with a star. -/
def isDocBlock : List SourceLine → Bool
  | [] => false
  | first :: more => startsWith "/**".toList (trim first.text) &&
      more.all fun l => startsWith ['*'] (trim l.text)

theorem isDocBlock_iff {block : List SourceLine} : isDocBlock block = true ↔
    ∃ first more, block = first :: more ∧ startsWith "/**".toList (trim first.text) = true ∧
      ∀ l ∈ more, startsWith ['*'] (trim l.text) = true := by
  cases block with
  | nil => simp [isDocBlock]
  | cons first more =>
    rw [isDocBlock, Bool.and_eq_true, List.all_eq_true]
    constructor
    · intro doc
      exact ⟨first, more, rfl, doc⟩
    · rintro ⟨first', more', cons, doc⟩
      obtain ⟨rfl, rfl⟩ := List.cons.inj cons
      exact doc

namespace Scan

/-! ### A declaration on its way -/

section
variable {o : Options} {s : State} {line : SourceLine}

/-- The declaration that `line` opened, the `n`-th of the source, is still gathered or is emitted. -/
inductive Underway (kind : DeclarationKind) (line : SourceLine) (n : Nat) (s : State) : Prop
  | gathered {st : Statement} : s.statement = some st → st.target = .declaration kind →
      st.start = line.index → s.count = n → Underway kind line n s
  | emitted {d : Declaration} : s.surface.declarations[n]? = some d → d.line = line.number →
      Underway kind line n s

variable {kind : DeclarationKind} {first : SourceLine} {n : Nat}

theorem Underway.kept {s' : State} {d : Declaration}
    (found : s.surface.declarations[n]? = some d) (number : d.line = first.number)
    (more : s.surface.declarations <+: s'.surface.declarations) : Underway kind first n s' := by
  obtain ⟨rest, whole⟩ := more
  refine .emitted (d := d) ?_ number
  rw [← whole, List.getElem?_append_left (List.getElem?_eq_some_iff.1 found).1]
  exact found

theorem underway_flush {st : Statement} (target : st.target = .declaration kind)
    (start : st.start = first.index) (count : s.count = n) :
    Underway kind first n (flush o s st).value := by
  unfold flush
  rw [target, store_declaration]
  refine .emitted (d := record o { s with statement := none } kind st.text st.start) ?_ ?_
  · rw [← count]
    exact List.getElem?_concat_length
  · simp [record, start, SourceLine.number]

theorem underway_settle (h : Underway kind first n s) (t : Text) :
    Underway kind first n (settle o s t) := by
  cases h with
  | emitted found number => exact .kept found number (settle_grows o s t).declarations
  | gathered open' target start count =>
    rcases settle_cases o s t with same | ⟨st, here, same⟩ <;> rw [same]
    · exact .gathered open' target start count
    · obtain rfl := Option.some.inj (open'.symm.trans here)
      exact underway_flush target start count

theorem underway_route {s' : State} (h : Underway kind first n s) (r : Route o s line s') :
    Underway kind first n s' := by
  cases h with
  | emitted found number => exact .kept found number (route_grows r).declarations
  | gathered open' target start count =>
    rename_i st
    have joined {st' : Statement} (joins : Joins s line st') : st' = st := by
      cases joins with
      | opened idle => simp [idle] at open'
      | extended same => exact Option.some.inj (same.symm.trans open')
    cases r with
    | ignored idle | default idle => simp [idle] at open'
    | comment =>
      rw [addComment_value]
      exact .gathered open' target start count
    | kept joins =>
      obtain rfl := joined joins
      exact .gathered rfl target start count
    | closed joins =>
      obtain rfl := joined joins
      exact underway_flush target start count

theorem underway_step (h : Underway kind first n s) (line : SourceLine) :
    Underway kind first n (step o s line).value := by
  rw [step_value]
  exact underway_route (underway_settle h _) (route_cases o _ line)

theorem underway_run (h : Underway kind first n s) (ls : List SourceLine) :
    Underway kind first n (run o s ls).value :=
  run_of_step (p := Underway kind first n) (fun _ line held => underway_step held line) h ls

/-- When the source ends, the declaration is among the emitted ones. -/
theorem emitted_of_underway (h : Underway kind first n s) (o : Options) :
    ∃ d, (finish o s).value.surface.declarations[n]? = some d ∧ d.line = first.number := by
  have done : Underway kind first n (stored o s) := by
    unfold stored
    cases open' : s.statement with
    | none => exact h
    | some st =>
      cases h with
      | emitted found number => exact .kept found number (flush_grows o s st).declarations
      | gathered same target start count =>
        obtain rfl := Option.some.inj (same.symm.trans open')
        exact underway_flush target start count
  rw [finish_stored]
  cases done with
  | emitted found number => exact ⟨_, found, number⟩
  | gathered open' => simp at open'

/-- A declaration that is no constant keeps all its lines. -/
theorem linesFor_of_not_constant (h : Underway kind first n s) (other : kind ≠ .constant)
    (ls : List SourceLine) : linesFor n (commented o s ls) = [] := by
  induction ls generalizing s with
  | nil => rfl
  | cons l ls ih =>
    rw [commented, linesFor_append, ih (underway_step h l), List.append_nil]
    split
    · next joins =>
      refine linesFor_eq_nil fun p member => ?_
      obtain rfl := List.mem_singleton.1 member
      cases underway_settle (o := o) h (trim l.text) with
      | gathered open' target =>
        simp [joinsComment, open', Target.diverts, target, Target.kind, other] at joins
      | emitted found =>
        have := (List.getElem?_eq_some_iff.1 found).1
        simp only [State.count, ne_eq]
        omega
    · rfl

end

/-! ### The block before a declaration -/

theorem classify_of_opensDoc {t : Text} (h : LineKind.opensDoc t = true) :
    LineKind.classify t = .comment := by
  rw [LineKind.classify, if_pos h]

/-- With no statement open, lines of a documentation block only join the comment block. -/
theorem commented_comments {o : Options} {s : State} (idle : s.statement = none)
    {ls : List SourceLine} (doc : ∀ l ∈ ls, LineKind.opensDoc (trim l.text) = true) :
    (run o s ls).value.statement = none ∧ (run o s ls).value.count = s.count ∧
      commented o s ls = ls.map fun l => (s.count, l) := by
  induction ls generalizing s with
  | nil => exact ⟨idle, rfl, rfl⟩
  | cons l ls ih =>
    have comment := classify_of_opensDoc (doc l (by simp))
    have met : settle o s (trim l.text) = s := by rw [settle, idle]
    have value : (step o s l).value = (addComment s (trim l.text) l).value := by
      rw [step_value, met, route, idle]
      simp [Scan.idle, comment]
    have joins : joinsComment s (trim l.text) = true := by simp [joinsComment, idle, comment]
    have same : (step o s l).value.count = s.count := by
      rw [value, addComment_value]
      rfl
    have open' : (step o s l).value.statement = none := by
      rw [value, addComment_value]
      exact idle
    obtain ⟨still, count, later⟩ := ih open' fun m member => doc m (by simp [member])
    refine ⟨still, count.trans same, ?_⟩
    simp only [commented, met, joins, ↓reduceIte, later, same, List.map_cons, List.singleton_append]

theorem opensDoc_of_star {t : Text} (h : startsWith ['*'] t = true) : LineKind.opensDoc t = true := by
  simp [LineKind.opensDoc, startsWithAny, h]

theorem opensDoc_of_slash {t : Text} (h : startsWith "/**".toList t = true) :
    LineKind.opensDoc t = true := by
  simp only [LineKind.opensDoc, startsWithAny, List.any_cons, h, Bool.true_or]

/-- A star does not open a block. -/
theorem opensBlock_of_star {l : SourceLine} (h : startsWith ['*'] (trim l.text) = true) :
    l.opensBlock = false := by
  unfold SourceLine.opensBlock
  obtain ⟨r, spelled⟩ := List.isPrefixOf_iff_prefix.1 h
  rw [← spelled]
  rfl

/-- A documentation block after a state of rest is counted whole. -/
theorem commented_block {o : Options} {s : State} (rests : Rests s) {block : List SourceLine}
    (doc : isDocBlock block = true) :
    (run o s block).value.statement = none ∧
      commented o s block = block.map fun l => ((run o s block).value.count, l) := by
  obtain ⟨first, more, rfl, slash, stars⟩ := isDocBlock_iff.1 doc
  have comment := classify_of_opensDoc (opensDoc_of_slash slash)
  have goesOn : startsWithAny Statement.leadingSigns (trim first.text) = false :=
    leadingSigns_of_classify (by simp [comment])
  have met := settle_of_rests rests goesOn o
  -- From here on the run is that from the state in which a waiting alias is stored.
  have same : (step o s first).value = (step o (stored o s) first).value := by
    rw [step_value, step_value, met, settle, stored_statement]
  have marked : ∀ l ∈ first :: more, LineKind.opensDoc (trim l.text) = true := by
    intro l member
    rcases List.mem_cons.1 member with rfl | member
    · exact opensDoc_of_slash slash
    · exact opensDoc_of_star (stars l member)
  obtain ⟨open', count, whole⟩ := commented_comments (o := o) (stored_statement o s) marked
  have ran : (run o s (first :: more)).value = (run o (stored o s) (first :: more)).value :=
    congrArg (fun s => (run o s more).value) same
  have counted : commented o s (first :: more) = commented o (stored o s) (first :: more) := by
    rw [commented, commented, met, same, settle, stored_statement]
  rw [ran, counted, count]
  exact ⟨open', whole⟩

/-- A line that opens a declaration is not counted, and sets the declaration on its way. -/
theorem underway_of_opens {o : Options} {s : State} {line : SourceLine} (idle : s.statement = none)
    (opens : LineKind.classify (trim line.text) = .constant ∨
      LineKind.classify (trim line.text) = .declaration) :
    Underway (.detect (trim line.text)) line s.count (step o s line).value ∧
      ∀ rest, commented o s (line :: rest) = commented o (step o s line).value rest := by
  have met : settle o s (trim line.text) = s := by rw [settle, idle]
  have target : Target.opened? (trim line.text) = some (.declaration (.detect (trim line.text))) := by
    rcases opens with kind | kind <;> simp [Target.opened?, kind]
  refine ⟨?_, fun rest => ?_⟩
  · have joined {st : Statement} (joins : Joins s line st) :
        st = .fresh (.declaration (.detect (trim line.text))) line := by
      cases joins with
      | opened _ known =>
        obtain rfl := Option.some.inj (known.symm.trans target)
        rfl
      | extended gathered => simp [idle] at gathered
    rw [step_value, met]
    generalize next : route o s line = s'
    have r : Route o s line s' := next ▸ route_cases o s line
    cases r with
    | ignored _ other => rcases opens with kind | kind <;> simp [other] at kind
    | default _ other => rcases opens with kind | kind <;> simp [other] at kind
    | comment reason =>
      rcases reason with ⟨-, other⟩ | ⟨st, gathered, -⟩
      · rcases opens with kind | kind <;> simp [other] at kind
      · simp [idle] at gathered
    | kept joins =>
      obtain rfl := joined joins
      exact .gathered rfl rfl rfl rfl
    | closed joins =>
      obtain rfl := joined joins
      exact underway_flush rfl rfl rfl
  · have aside : joinsComment s (trim line.text) = false := by
      rcases opens with kind | kind <;> simp [joinsComment, idle, kind]
    simp [commented, met, aside]

/-- The lines after `line` that go to the comment block before the declaration that it opens is
emitted: those that stand inside the declaration. -/
def insideComments (o : Options) (s : State) (line : SourceLine) (rest : List SourceLine) :
    List SourceLine :=
  linesFor s.count (commented o (step o s line).value rest)

/-- The records that statements in source order become have increasing line numbers. -/
theorem Emits.lines_pairwise {o : Options} {f : Surface} {es : List Entry} (h : Emits o f es)
    (ordered : es.Pairwise fun e e' => e.first.Before e'.first) :
    (f.declarations.map Declaration.line).Pairwise (· < ·) := by
  have lines : f.declarations.map Declaration.line =
      (es.filterMap (Entry.declaration? o.style)).map fun d => d.2.2 := by
    rw [← h.declarations, List.map_map]
    rfl
  rw [lines, List.pairwise_map, List.pairwise_filterMap]
  refine ordered.imp fun {e e'} before d shown d' shown' => ?_
  rw [Entry.declaration?_line shown, Entry.declaration?_line shown', SourceLine.number,
    SourceLine.number]
  omega

/-- No two declarations of a source have the same line. -/
theorem declaration_unique {o : Options} {source : Text} {d d' : Declaration}
    (here : d ∈ (scan o source).value.declarations)
    (there : d' ∈ (scan o source).value.declarations) (same : d.line = d'.line) : d = d' := by
  obtain ⟨a, accounts, -⟩ := exists_accounts o source
  have ordered := (List.pairwise_flatMap.1 accounts.explains.ordered).2
  have increasing := accounts.emits.lines_pairwise (ordered.imp fun {e e'} before =>
    before e.first List.mem_cons_self e'.first List.mem_cons_self)
  rw [List.pairwise_map] at increasing
  obtain ⟨n, inside, rfl⟩ := List.mem_iff_getElem.1 here
  obtain ⟨m, within, rfl⟩ := List.mem_iff_getElem.1 there
  have apart := List.pairwise_iff_getElem.1 increasing
  rcases Nat.lt_trichotomy n m with less | rfl | greater
  · have := apart n m inside within less
    omega
  · rfl
  · have := apart m n within inside greater
    omega

/-- A block whose last line is not blank ends where its last line does. -/
theorem blockText_eq {ls : List SourceLine} (marked : ∀ l ∈ ls, trim l.text ≠ []) :
    blockText ls = joinLines (ls.map fun l => trimRight l.text) := by
  by_cases empty : ls = []
  · subst empty
    rfl
  · have last := marked _ (List.getLast_mem empty)
    obtain ⟨c, inside, -⟩ := exists_solid_of_trim last
    obtain ⟨d, ends, solid⟩ := getLast?_trimRight (List.ne_nil_of_mem inside)
    have whole : (joinPieces '\n' ((ls.dropLast.map fun l => trimRight l.text) ++
        [trimRight (ls.getLast empty).text])).getLast? = some d := getLast?_joinPieces _ ends
    refine trimRight_of_getLast (c := d) ?_ solid
    rw [← whole, joinLines, ← List.map_singleton (f := fun l : SourceLine => trimRight l.text),
      ← List.map_append, List.dropLast_concat_getLast]

/-- A documentation block is kept word for word. -/
theorem blockText_of_isDocBlock {block : List SourceLine} (doc : isDocBlock block = true) :
    blockText (lastBlock block) = joinLines (block.map fun l => trimRight l.text) := by
  obtain ⟨first, more, rfl, slash, stars⟩ := isDocBlock_iff.1 doc
  have alone : lastBlock (first :: more) = first :: more := by
    rw [lastBlock, if_neg]
    simp only [List.any_eq_true, not_exists, not_and]
    intro l star
    simp [opensBlock_of_star (stars l star)]
  have marked : ∀ l ∈ first :: more, trim l.text ≠ [] := by
    intro l there empty
    rcases List.mem_cons.1 there with rfl | there
    · rw [empty] at slash
      cases slash
    · have star := stars l there
      rw [empty] at star
      cases star
  rw [alone, blockText_eq marked]

/-- **A documentation block reaches the declaration behind it**, together with the comment lines
inside that declaration, from the last line on that opens a block. So the block is the comment, word
for word, unless a comment stands inside; and only in a constant can one stand inside. -/
theorem block_reaches_declaration {o : Options} (keep : o.keepComments = true) {source : Text}
    {before block rest : List SourceLine} {line : SourceLine}
    (lines : SourceLine.ofText source = before ++ (block ++ line :: rest))
    (idle : Rests (run o .start before).value) (doc : isDocBlock block = true)
    (opens : LineKind.classify (trim line.text) = .constant ∨
      LineKind.classify (trim line.text) = .declaration) :
    let inside := insideComments o (run o .start (before ++ block)).value line rest
    ∃ d ∈ (scan o source).value.declarations, d.line = line.number ∧
      (∀ d' ∈ (scan o source).value.declarations, d'.line = line.number → d' = d) ∧
      d.comment = some (blockText (lastBlock (block ++ inside))) ∧
      (inside = [] → d.comment = some (joinLines (block.map fun l => trimRight l.text))) ∧
      (DeclarationKind.detect (trim line.text) ≠ .constant → inside = []) := by
  intro inside
  obtain ⟨open', counted⟩ := commented_block (o := o) idle doc
  rw [← run_append] at open' counted
  obtain ⟨underway, aside⟩ := underway_of_opens (o := o) open' opens
  let n := (run o .start (before ++ block)).value.count
  obtain ⟨d, found, number⟩ := emitted_of_underway (underway_run underway rest) o
  have whole : (run o .start (SourceLine.ofText source)).value =
      (run o (step o (run o .start (before ++ block)).value line).value rest).value := by
    rw [lines, ← List.append_assoc, run_append]
    rfl
  rw [← whole, ← scan_value] at found
  have member := List.mem_of_getElem? found
  obtain ⟨first, more, rfl, slash, -⟩ := isDocBlock_iff.1 doc
  have opening : first.opensBlock = true := by
    obtain ⟨r, spelled⟩ := List.isPrefixOf_iff_prefix.1 slash
    rw [SourceLine.opensBlock, ← spelled]
    rfl
  have comments : commentLines o source n =
      linesFor n (commented o .start before) ++ first :: (more ++ inside) := by
    have block : linesFor n ((first :: more).map fun l => (n, l)) = first :: more := by
      simp [linesFor, List.filter_map, Function.comp_def]
    rw [commentLines, lines, ← List.append_assoc, commented_append, commented_append, counted,
      linesFor_append, linesFor_append, block, aside rest]
    simp [inside, insideComments, n]
  have comment : d.comment = some (blockText (lastBlock (first :: more ++ inside))) := by
    rw [comment_eq_attached found, if_pos keep, comments, attached, if_neg (by simp),
      lastBlock_append_opening opening]
    rfl
  refine ⟨d, member, number, ?_, comment, ?_, ?_⟩
  · intro d' other same
    exact declaration_unique other member (same.trans number.symm)
  · intro none
    rw [comment, none, List.append_nil, blockText_of_isDocBlock doc]
  · intro other
    exact linesFor_of_not_constant underway other rest

/-- The block of three lines before a constant is its comment. -/
theorem constant_documented :
    let o : Options := ⟨true, true, .plain "  ".toList⟩
    let source : Text := "/** Limits.\n *\n */\nexport const a = \x7b\n  b: 1, // one\n\x7d".toList
    ∃ d ∈ (scan o source).value.declarations, d.line = 4 ∧
      d.comment = some "/** Limits.\n *\n */".toList := by
  intro o source
  have lines : SourceLine.ofText source =
      [] ++ ([⟨0, "/** Limits.".toList⟩, ⟨1, " *".toList⟩, ⟨2, " */".toList⟩] ++
        ⟨3, "export const a = \x7b".toList⟩ ::
          [⟨4, "  b: 1, // one".toList⟩, ⟨5, "\x7d".toList⟩]) := by decide +kernel
  have reached := block_reaches_declaration (o := o) rfl lines (rests_of_none rfl)
    (by decide +kernel) (.inl (by decide +kernel))
  obtain ⟨d, member, number, -, -, plain, -⟩ := reached
  exact ⟨d, member, number, (plain (by decide +kernel)).trans (congrArg some (by decide +kernel))⟩

/-- A comment inside a constant takes the place of the block before the constant. -/
theorem block_lost_to_inner_comment :
    let o : Options := ⟨true, true, .plain "  ".toList⟩
    let block : List SourceLine := [⟨0, "/** Limits. */".toList⟩]
    let line : SourceLine := ⟨1, "export const a = \x7b".toList⟩
    let rest : List SourceLine :=
      [⟨2, "  /** Upper. */".toList⟩, ⟨3, "  b: 1,".toList⟩, ⟨4, "\x7d".toList⟩]
    let source : Text := joinLines ((block ++ line :: rest).map SourceLine.text)
    SourceLine.ofText source = block ++ line :: rest ∧ isDocBlock block = true ∧
      LineKind.classify (trim line.text) = .constant ∧
      (scan o source).value.declarations.map (fun d => (d.line, d.comment)) =
        [((line.number : Int), some "  /** Upper. */".toList)] := by
  decide +kernel

end Scan

end Ambient
