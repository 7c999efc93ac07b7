import Ambient.Proofs.Accounting

/-!
Which comment lines a declaration gets. Every line that goes to the comment block is counted with
the number of declarations emitted before it (`commented`). The declaration emitted next takes the
last block among the lines of its own number, whatever was imported, re-exported, exported by
default or ignored in between; nothing else empties the block.
-/

namespace Ambient

/-- The line opens a comment block, and drops the one that is pending. -/
def SourceLine.opensBlock (l : SourceLine) : Bool := startsWith "/*".toList (trim l.text)

namespace Scan

/-- Met in this settled state, the line goes to the comment block. -/
def joinsComment (s : State) (t : Text) : Bool :=
  match s.statement with
  | none => LineKind.classify t == .comment
  | some st => st.target.diverts t

/-- How many declarations were emitted so far. -/
def State.count (s : State) : Nat := s.surface.declarations.length

/-- The lines that go to the comment block, each with the number of declarations emitted before. -/
def commented (o : Options) (s : State) : List SourceLine → List (Nat × SourceLine)
  | [] => []
  | l :: ls =>
    let met := settle o s (trim l.text)
    (if joinsComment met (trim l.text) then [(met.count, l)] else []) ++
      commented o (step o s l).value ls

/-- Of counted lines, those met after `n` declarations. -/
def linesFor (n : Nat) (ps : List (Nat × SourceLine)) : List SourceLine :=
  (ps.filter (·.1 == n)).map (·.2)

/-- The lines from the last one on that opens a block; all of them when none does. -/
def lastBlock : List SourceLine → List SourceLine
  | [] => []
  | l :: ls => if ls.any SourceLine.opensBlock then lastBlock ls else l :: ls

/-- The text of a block, without blanks at the ends of its lines and at its own end. -/
def blockText (ls : List SourceLine) : Text :=
  trimRight (joinLines (ls.map fun l => trimRight l.text))

/-- The comment made of the lines that went to the block. -/
def attached (ls : List SourceLine) : Option Text :=
  if ls = [] then none else some (blockText (lastBlock ls))

/-- The lines that go to the comment block after `n` declarations and before the next. -/
def commentLines (o : Options) (source : Text) (n : Nat) : List SourceLine :=
  linesFor n (commented o .start (SourceLine.ofText source))

/-! ### Blocks -/

theorem linesFor_append (n : Nat) (ps qs : List (Nat × SourceLine)) :
    linesFor n (ps ++ qs) = linesFor n ps ++ linesFor n qs := by
  simp [linesFor]

@[simp] theorem mem_linesFor {n : Nat} {ps : List (Nat × SourceLine)} {l : SourceLine} :
    l ∈ linesFor n ps ↔ (n, l) ∈ ps := by
  constructor
  · intro member
    obtain ⟨⟨m, l'⟩, found, rfl⟩ := List.mem_map.1 member
    obtain ⟨inside, same⟩ := List.mem_filter.1 found
    obtain rfl : m = n := by simpa using same
    exact inside
  · intro member
    exact List.mem_map.2 ⟨(n, l), List.mem_filter.2 ⟨member, by simp⟩, rfl⟩

theorem linesFor_eq_nil {n : Nat} {ps : List (Nat × SourceLine)} (h : ∀ p ∈ ps, p.1 ≠ n) :
    linesFor n ps = [] := by
  refine List.eq_nil_iff_forall_not_mem.2 fun l member => ?_
  exact h (n, l) (mem_linesFor.1 member) rfl

theorem lastBlock_concat (ls : List SourceLine) (l : SourceLine) :
    lastBlock (ls ++ [l]) = if l.opensBlock then [l] else lastBlock ls ++ [l] := by
  induction ls with
  | nil => simp [lastBlock]
  | cons m ls ih =>
    rw [List.cons_append, lastBlock, lastBlock, ih]
    by_cases opens : l.opensBlock = true
    · simp [opens]
    · by_cases later : ls.any SourceLine.opensBlock = true
      · simp [opens, later]
      · simp [opens, later]

theorem lastBlock_ne_nil {ls : List SourceLine} (h : ls ≠ []) : lastBlock ls ≠ [] := by
  rw [← List.dropLast_concat_getLast h, lastBlock_concat]
  split <;> simp

theorem lastBlock_suffix (ls : List SourceLine) : lastBlock ls <:+ ls := by
  induction ls with
  | nil => exact List.nil_suffix
  | cons l ls ih =>
    rw [lastBlock]
    split
    · exact ih.trans (List.suffix_cons l ls)
    · exact List.suffix_rfl

/-- Lines before one that opens a block do not matter. -/
theorem lastBlock_append_opening {l : SourceLine} (opens : l.opensBlock = true)
    (front more : List SourceLine) : lastBlock (front ++ l :: more) = lastBlock (l :: more) := by
  induction front with
  | nil => rfl
  | cons m front ih =>
    have later : (front ++ l :: more).any SourceLine.opensBlock = true := by simp [opens]
    rw [List.cons_append, lastBlock, if_pos later, ih]

/-- Trimming leaves something exactly when there is a solid character. -/
theorem exists_solid_of_trim {t : Text} (h : trim t ≠ []) :
    ∃ c ∈ trimRight t, isBlank c = false := by
  cases all : (trimRight t).all isBlank with
  | true =>
    have empty := trim_append_blank (List.all_eq_true.1 all) []
    rw [List.nil_append, trim_trimRight] at empty
    exact absurd empty h
  | false => simpa using List.all_eq_false.1 all

/-- The comment that the pending block becomes, when it is the last block of the lines so far and
none of them is blank. -/
theorem take?_eq_attached {ls : List SourceLine} (marked : ∀ l ∈ ls, trim l.text ≠ []) :
    CommentBlock.take? ⟨(lastBlock ls).map fun l => trimRight l.text⟩ = attached ls := by
  by_cases empty : ls = []
  · subst empty
    rfl
  · have block : (lastBlock ls).map (fun l => trimRight l.text) ≠ [] := by
      simpa using lastBlock_ne_nil empty
    have text : CommentBlock.text ⟨(lastBlock ls).map fun l => trimRight l.text⟩ =
        blockText (lastBlock ls) := by
      rw [CommentBlock.text, flatMap_concat_mark '\n' block, trimRight_append_blank (by decide)]
      rfl
    have solid : CommentBlock.text ⟨(lastBlock ls).map fun l => trimRight l.text⟩ ≠ [] := by
      obtain ⟨l, member⟩ := List.exists_mem_of_ne_nil _ (lastBlock_ne_nil empty)
      obtain ⟨c, inside, solid⟩ :=
        exists_solid_of_trim (marked l ((lastBlock_suffix ls).subset member))
      refine trimRight_ne_nil (c := c) (List.mem_flatMap.2 ⟨trimRight l.text, ?_, ?_⟩) solid
      · exact List.mem_map_of_mem member
      · exact List.mem_append_left _ inside
    rw [CommentBlock.take?, if_neg solid, text, attached, if_neg empty]

/-! ### The block along a run -/

/-- The counted lines `ps` explain the pending block and the comments emitted so far. -/
structure Pending (o : Options) (ps : List (Nat × SourceLine)) (s : State) : Prop where
  block : s.comment.lines = (lastBlock (linesFor s.count ps)).map fun l => trimRight l.text
  records : ∀ n d, s.surface.declarations[n]? = some d →
    d.comment = if o.keepComments then attached (linesFor n ps) else none
  bounded : ∀ p ∈ ps, p.1 ≤ s.count
  marked : ∀ p ∈ ps, trim p.2.text ≠ []

section
variable {o : Options} {ps : List (Nat × SourceLine)} {s : State} {line : SourceLine}

theorem opensDoc_of_classify {t : Text} (h : LineKind.classify t = .comment) :
    LineKind.opensDoc t = true := by
  cases doc : LineKind.opensDoc t with
  | true => rfl
  | false =>
    simp only [LineKind.classify, doc, Bool.false_eq_true, ↓reduceIte] at h
    repeat' split at h
    all_goals cases h

/-- A line that goes to the comment block starts with a mark of a comment. -/
theorem starts_of_joinsComment {t : Text} (h : joinsComment s t = true) :
    startsWith "/*".toList t = true ∨ startsWith ['*'] t = true := by
  have doc (comment : LineKind.classify t = .comment) :
      startsWith "/*".toList t = true ∨ startsWith ['*'] t = true := by
    have opens : LineKind.opensDoc t = true := opensDoc_of_classify comment
    simp only [LineKind.opensDoc, startsWithAny, List.any_cons, List.any_nil, Bool.or_false,
      Bool.or_eq_true] at opens
    refine opens.imp_left fun slash => ?_
    have longer := List.isPrefixOf_iff_prefix.1 slash
    exact List.isPrefixOf_iff_prefix.2 (List.IsPrefix.trans (by decide) longer)
  unfold joinsComment at h
  cases gathered : s.statement with
  | none =>
    rw [gathered] at h
    exact doc (by simpa using h)
  | some st =>
    rw [gathered] at h
    simp only [Target.diverts, Bool.and_eq_true, Bool.or_eq_true, beq_iff_eq] at h
    exact h.2.elim doc .inl

theorem ne_nil_of_joinsComment {t : Text} (h : joinsComment s t = true) : t ≠ [] := by
  rintro rfl
  rcases starts_of_joinsComment h with starts | starts <;> cases starts

theorem joinsComment_of_joins {st : Statement} (h : Joins s line st) :
    joinsComment s (trim line.text) = false := by
  cases h with
  | opened idle opens =>
    cases kind : LineKind.classify (trim line.text) <;>
      simp_all [joinsComment, Target.opened?]
  | extended gathered goesOn => simp [joinsComment, gathered, goesOn]

/-- What does not touch the block and the declarations keeps the explanation. -/
theorem Pending.congr {s' : State} (h : Pending o ps s) (comment : s'.comment = s.comment)
    (declarations : s'.surface.declarations = s.surface.declarations) : Pending o ps s' := by
  have count : s'.count = s.count := by rw [State.count, declarations, State.count]
  refine ⟨?_, ?_, ?_, h.marked⟩
  · rw [comment, count, h.block]
  · rw [declarations]
    exact h.records
  · rw [count]
    exact h.bounded

theorem linesFor_count_succ (h : ∀ p ∈ ps, p.1 ≤ s.count) : linesFor (s.count + 1) ps = [] := by
  refine linesFor_eq_nil fun p member same => ?_
  have := h p member
  omega

/-- Only a declaration takes the block, and it takes all of it. -/
theorem pending_flush (h : Pending o ps s) (st : Statement) : Pending o ps (flush o s st).value := by
  unfold flush
  cases st.target with
  | importing =>
    rw [store_importing]
    exact h.congr rfl rfl
  | reexport =>
    rw [store_reexport]
    exact h.congr rfl rfl
  | declaration kind =>
    rw [store_declaration]
    have taken : s.comment.take? = attached (linesFor s.count ps) := by
      rw [← take?_eq_attached fun l member => h.marked _ (mem_linesFor.1 member), ← h.block]
    refine ⟨?_, ?_, ?_, h.marked⟩
    · simp only [State.count, List.length_append, List.length_singleton]
      rw [show linesFor (s.surface.declarations.length + 1) ps = [] from
        linesFor_count_succ h.bounded]
      rfl
    · intro n d found
      rw [List.getElem?_append] at found
      split at found
      · exact h.records n d found
      · next last =>
        obtain ⟨at', rfl⟩ : n - s.surface.declarations.length = 0 ∧ _ = d := by
          simpa [List.getElem?_singleton] using found
        obtain rfl : n = s.count := Nat.le_antisymm (Nat.sub_eq_zero_iff_le.1 at') (Nat.not_lt.1 last)
        simp only [record, taken]
    · intro p member
      have := h.bounded p member
      simp only [State.count, List.length_append, List.length_singleton] at this ⊢
      omega

theorem pending_settle (h : Pending o ps s) (t : Text) : Pending o ps (settle o s t) := by
  rcases settle_cases o s t with same | ⟨st, -, same⟩ <;> rw [same]
  · exact h
  · exact pending_flush h st

theorem pending_comment (h : Pending o ps s) (joins : joinsComment s (trim line.text) = true) :
    Pending o (ps ++ [(s.count, line)]) (addComment s (trim line.text) line).value := by
  have here : linesFor s.count [(s.count, line)] = [line] := by simp [linesFor]
  rw [addComment_value]
  refine ⟨?_, ?_, ?_, ?_⟩
  · change CommentBlock.lines _ = (lastBlock (linesFor s.count (ps ++ [(s.count, line)]))).map _
    rw [linesFor_append, here, lastBlock_concat]
    rw [show startsWith "/*".toList (trim line.text) = line.opensBlock from rfl]
    cases line.opensBlock with
    | true => rfl
    | false => simp [CommentBlock.push, h.block]
  · intro n d found
    have below : n ≠ s.count := Nat.ne_of_lt (List.getElem?_eq_some_iff.1 found).1
    have other : linesFor n [(s.count, line)] = [] := linesFor_eq_nil (by simpa using Ne.symm below)
    rw [linesFor_append, other, List.append_nil]
    exact h.records n d found
  · intro p member
    rcases List.mem_append.1 member with known | isNew
    · exact h.bounded p known
    · obtain rfl := List.mem_singleton.1 isNew
      exact Nat.le_refl s.count
  · intro p member
    rcases List.mem_append.1 member with known | isNew
    · exact h.marked p known
    · obtain rfl := List.mem_singleton.1 isNew
      exact ne_nil_of_joinsComment joins

theorem pending_route {s' : State} (h : Pending o ps s) (r : Route o s line s') :
    Pending o (ps ++ if joinsComment s (trim line.text) then [(s.count, line)] else []) s' := by
  cases r with
  | ignored idle other => simpa [joinsComment, idle, other] using h
  | comment reason =>
    have joins : joinsComment s (trim line.text) = true := by
      rcases reason with ⟨idle, doc⟩ | ⟨st, gathered, diverts⟩
      · simp [joinsComment, idle, doc]
      · simp [joinsComment, gathered, diverts]
    rw [if_pos joins]
    exact pending_comment h joins
  | default idle kind =>
    have aside : joinsComment s (trim line.text) = false := by simp [joinsComment, idle, kind]
    rw [setDefault_value, aside]
    exact (List.append_nil ps).symm ▸ h.congr rfl rfl
  | kept joins =>
    rw [joinsComment_of_joins joins]
    exact (List.append_nil ps).symm ▸ h.congr rfl rfl
  | closed joins =>
    rw [joinsComment_of_joins joins]
    exact (List.append_nil ps).symm ▸ pending_flush h _

theorem pending_run (h : Pending o ps s) (ls : List SourceLine) :
    Pending o (ps ++ commented o s ls) (run o s ls).value := by
  induction ls generalizing ps s with
  | nil => simpa [commented, run] using h
  | cons l ls ih =>
    have next := pending_route (pending_settle h (trim l.text)) (route_cases o _ l)
    rw [← step_value] at next
    have later := ih next
    rw [List.append_assoc] at later
    exact later

end

theorem pending_source (o : Options) (ls : List SourceLine) :
    Pending o (commented o .start ls) (run o .start ls).value := by
  have start : Pending o [] State.start :=
    ⟨rfl, fun n d found => by simp [State.start, Surface.empty] at found, by simp, by simp⟩
  simpa using pending_run start ls

/-! ### Each line once -/

theorem commented_append (o : Options) (s : State) (ls ms : List SourceLine) :
    commented o s (ls ++ ms) = commented o s ls ++ commented o (run o s ls).value ms := by
  induction ls generalizing s with
  | nil => rfl
  | cons l ls ih =>
    rw [List.cons_append, commented, ih, commented, List.append_assoc]
    rfl

theorem commented_sublist (o : Options) (s : State) (ls : List SourceLine) :
    ((commented o s ls).map (·.2)).Sublist ls := by
  induction ls generalizing s with
  | nil => exact List.Sublist.slnil
  | cons l ls ih =>
    rw [commented, List.map_append]
    split
    · exact (ih _).cons_cons l
    · exact (ih _).cons l

theorem mem_of_mem_commented {o : Options} {s : State} {ls : List SourceLine} {p : Nat × SourceLine}
    (h : p ∈ commented o s ls) : p.2 ∈ ls :=
  (commented_sublist o s ls).subset (List.mem_map_of_mem h)

/-- A line is counted once. -/
theorem commented_unique {o : Options} {s : State} {ls : List SourceLine}
    (ordered : ls.Pairwise SourceLine.Before) {n m : Nat} {l : SourceLine}
    (here : (n, l) ∈ commented o s ls) (there : (m, l) ∈ commented o s ls) : n = m := by
  induction ls generalizing s with
  | nil => cases here
  | cons first ls ih =>
    obtain ⟨before, later⟩ := List.pairwise_cons.1 ordered
    have absent {k : Nat} (member : (k, first) ∈ commented o (step o s first).value ls) : False :=
      Nat.lt_irrefl _ (before first (mem_of_mem_commented member))
    simp only [commented, List.mem_append] at here there
    rcases here with here | here
    · rcases there with there | there
      · split at here
        · simp_all
        · cases here
      · split at here
        · obtain ⟨-, rfl⟩ := Prod.mk.inj (List.mem_singleton.1 here)
          exact (absent there).elim
        · cases here
    · rcases there with there | there
      · split at there
        · obtain ⟨-, rfl⟩ := Prod.mk.inj (List.mem_singleton.1 there)
          exact (absent here).elim
        · cases there
      · exact ih later here there

/-- The comment of a declaration, from the lines counted for it. -/
theorem comment_eq_attached {o : Options} {source : Text} {n : Nat} {d : Declaration}
    (h : (scan o source).value.declarations[n]? = some d) :
    d.comment = if o.keepComments then attached (commentLines o source n) else none := by
  rw [scan_value, finish_surface] at h
  have whole := pending_source o (SourceLine.ofText source)
  cases gathered : (run o .start (SourceLine.ofText source)).value.statement with
  | none =>
    rw [gathered] at h
    exact whole.records n d h
  | some st =>
    rw [gathered] at h
    exact (pending_flush whole st).records n d h

/-- **Every comment line reaches at most one declaration.** The `n`-th declaration takes the last
block among the lines that went to the comment block since the declaration before it, and no comment
when there were none. A line goes there once, in source order. The pending block after any part of
the source is made of the lines since the last declaration, so nothing but a declaration consumes it,
and lines after the last declaration are in no comment. -/
theorem comments_attached_once (o : Options) (source : Text) :
    (∀ n d, (scan o source).value.declarations[n]? = some d →
      d.comment = if o.keepComments then attached (commentLines o source n) else none) ∧
    (∀ n m l, l ∈ commentLines o source n → l ∈ commentLines o source m → n = m) ∧
    ((commented o .start (SourceLine.ofText source)).map (·.2)).Sublist
      (SourceLine.ofText source) ∧
    ∀ before after, SourceLine.ofText source = before ++ after →
      let s : State := (run o .start before).value
      s.comment.lines =
        (lastBlock (linesFor s.count (commented o .start before))).map fun l => trimRight l.text := by
  have ordered : (SourceLine.ofText source).Pairwise SourceLine.Before :=
    SourceLine.numbered_pairwise 0 _
  refine ⟨fun n d found => comment_eq_attached found, ?_, commented_sublist o _ _, ?_⟩
  · intro n m l here there
    exact commented_unique ordered (mem_linesFor.1 here) (mem_linesFor.1 there)
  · intro before after _
    exact (pending_source o before).block

end Scan

end Ambient
