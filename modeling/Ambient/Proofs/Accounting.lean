import Ambient.Proofs.Step

/-!
Every line of a source has one role: it is part of one statement, joins the comment block, is a
default export, or is ignored. An `Account` says which, and it grows by one line a step. A statement
that is still open is the last of the account, and the surface shows the ones before it.
-/

namespace Ambient

/-- Earlier in the source. -/
abbrev SourceLine.Before (l m : SourceLine) : Prop := l.index < m.index

theorem SourceLine.le_index_of_mem_numbered {n : Nat} {ts : List Text} {l : SourceLine}
    (h : l ∈ numbered n ts) : n ≤ l.index := by
  induction ts generalizing n with
  | nil => simp [numbered] at h
  | cons t ts ih =>
    rcases List.mem_cons.1 h with rfl | h
    · exact Nat.le_refl n
    · exact Nat.le_of_succ_le (ih h)

theorem SourceLine.numbered_pairwise (n : Nat) (ts : List Text) :
    (numbered n ts).Pairwise Before := by
  induction ts generalizing n with
  | nil => exact .nil
  | cons t ts ih => exact .cons (fun l h => le_index_of_mem_numbered h) (ih (n + 1))

namespace Scan

/-- A statement of the source: what it is, the line that opens it, and its other lines. -/
structure Entry where
  target : Target
  first : SourceLine
  more : List SourceLine

namespace Entry

def lines (e : Entry) : List SourceLine := e.first :: e.more

def add (e : Entry) (line : SourceLine) : Entry := { e with more := e.more ++ [line] }

/-- The source text of the statement. -/
def text (e : Entry) : Text := trim (joinLines (e.lines.map fun l => trimRight l.text))

def import? (e : Entry) : Option Text :=
  if e.target = .importing then some (Import.normalize e.text) else none

def reexport? (e : Entry) : Option Text := if e.target = .reexport then some e.text else none

/-- The kind, the ambient form and the line number of a declaration. -/
def declaration? (style : Style) (e : Entry) : Option (DeclarationKind × Text × Int) :=
  match e.target with
  | .declaration kind =>
    some (kind, ((style.formOf kind).form style.indentUnit e.text).value, e.first.number)
  | _ => none

@[simp] theorem add_lines (e : Entry) (line : SourceLine) : (e.add line).lines = e.lines ++ [line] :=
  rfl

end Entry

/-- The surface is what the statements become, in their order. -/
structure Emits (o : Options) (f : Surface) (es : List Entry) : Prop where
  imports : f.imports = es.filterMap Entry.import?
  reexports : f.reexports = es.filterMap Entry.reexport?
  declarations : f.declarations.map (fun d => (d.kind, d.text, d.line)) =
    es.filterMap (Entry.declaration? o.style)

/-- The statement being gathered is the entry. -/
structure Holds (st : Statement) (e : Entry) : Prop where
  target : st.target = e.target
  start : st.start = e.first.index
  lines : st.lines = e.lines.map fun l => trimRight l.text

theorem emits_flush {o : Options} {s : State} {st : Statement} {e : Entry} {es : List Entry}
    (h : Emits o s.surface es) (holds : Holds st e) :
    Emits o (flush o s st).value.surface (es ++ [e]) := by
  have text : st.text = e.text := by rw [Statement.text, Entry.text, holds.lines]
  unfold flush
  rw [holds.target, holds.start, text]
  cases target : e.target with
  | importing =>
    rw [store_importing]
    exact ⟨by simp [h.imports, Entry.import?, target], by simp [h.reexports, Entry.reexport?, target],
      by simp [h.declarations, Entry.declaration?, target]⟩
  | reexport =>
    rw [store_reexport]
    exact ⟨by simp [h.imports, Entry.import?, target], by simp [h.reexports, Entry.reexport?, target],
      by simp [h.declarations, Entry.declaration?, target]⟩
  | declaration kind =>
    rw [store_declaration]
    exact ⟨by simp [h.imports, Entry.import?, target], by simp [h.reexports, Entry.reexport?, target],
      by simp [h.declarations, Entry.declaration?, target, record, SourceLine.number]⟩

theorem holds_fresh (target : Target) (line : SourceLine) :
    Holds ((Statement.fresh target line).push line.text) ⟨target, line, []⟩ :=
  ⟨rfl, rfl, rfl⟩

theorem holds_push {st : Statement} {e : Entry} (h : Holds st e) (line : SourceLine) :
    Holds (st.push line.text) (e.add line) :=
  ⟨h.target, h.start, by rw [Statement.push_lines, h.lines, Entry.add_lines]; simp⟩

/-! ### Accounts -/

/-- The role of every line. -/
structure Account where
  entries : List Entry
  comments : List SourceLine
  defaults : List SourceLine
  ignored : List SourceLine

namespace Account

def lines (a : Account) : List SourceLine :=
  a.entries.flatMap Entry.lines ++ a.comments ++ a.defaults ++ a.ignored

/-- The line is part of the statement, or it stands inside a constant and joins the comment block. -/
def Covers (a : Account) (e : Entry) (l : SourceLine) : Prop :=
  l ∈ e.lines ∨ e.target = .declaration .constant ∧ l ∈ a.comments

end Account

/-- The scanner comes to the line `l` of `ls` in the settled state `s` and leaves it in `s'`, for
some `s` and `s'` that `p` relates. -/
def Meets (o : Options) (ls : List SourceLine) (l : SourceLine) (p : State → State → Prop) : Prop :=
  ∃ before after, ls = before ++ l :: after ∧
    p (settle o (run o .start before).value (trim l.text)) (run o .start (before ++ [l])).value

theorem meets_append {o : Options} {ls : List SourceLine} {l : SourceLine}
    {p : State → State → Prop} (h : Meets o ls l p) (ms : List SourceLine) :
    Meets o (ls ++ ms) l p := by
  obtain ⟨before, after, rfl, holds⟩ := h
  exact ⟨before, after ++ ms, by simp, holds⟩

/-- The account gives every line its role, and the statements are intervals of the source in its
order. -/
structure Account.Explains (o : Options) (ls : List SourceLine) (a : Account) : Prop where
  once : a.lines.Perm ls
  ordered : (a.entries.flatMap Entry.lines).Pairwise SourceLine.Before
  interval : ∀ e ∈ a.entries, ∀ l ∈ ls, ∀ m ∈ e.lines, e.first.index ≤ l.index →
    l.index ≤ m.index → a.Covers e l
  entries : ∀ e ∈ a.entries, Target.opened? (trim e.first.text) = some e.target ∧
    Meets o ls e.first fun s _ => s.statement = none
  comments : ∀ l ∈ a.comments, Meets o ls l fun s s' => s' = (addComment s (trim l.text) l).value
  defaults : ∀ l ∈ a.defaults, LineKind.classify (trim l.text) = .defaultExport ∧
    Meets o ls l fun s s' => s.statement = none ∧ s' = (setDefault o s (trim l.text) l).value
  ignored : ∀ l ∈ a.ignored, LineKind.classify (trim l.text) = .other ∧
    Meets o ls l fun s s' => s.statement = none ∧ s' = s

/-! ### One more line -/

section
variable {o : Options} {ls : List SourceLine} {line : SourceLine} {a : Account}

theorem Account.Covers.mono {a' : Account} {e : Entry} {l : SourceLine} (h : a.Covers e l)
    (more : a.comments ⊆ a'.comments) : a'.Covers e l :=
  h.imp_right fun ⟨constant, member⟩ => ⟨constant, more member⟩

theorem Account.Explains.mem (h : a.Explains o ls) {e : Entry} (entry : e ∈ a.entries)
    {m : SourceLine} (member : m ∈ e.lines) : m ∈ ls := by
  apply h.once.mem_iff.1
  simp only [Account.lines, List.mem_append, List.mem_flatMap]
  exact .inl (.inl (.inl ⟨e, entry, member⟩))

/-- A statement that ended before a line does not cover it. -/
theorem Account.Explains.interval_append {a' : Account} (h : a.Explains o ls)
    (later : ∀ l ∈ ls, l.Before line) (more : a.comments ⊆ a'.comments) {e : Entry}
    (entry : e ∈ a.entries) {l m : SourceLine} (source : l ∈ ls ++ [line]) (member : m ∈ e.lines)
    (start : e.first.index ≤ l.index) (stop : l.index ≤ m.index) : a'.Covers e l := by
  rcases List.mem_append.1 source with known | isNew
  · exact (h.interval e entry l known m member start stop).mono more
  · obtain rfl := List.mem_singleton.1 isNew
    exact absurd stop (Nat.not_le.2 (later m (h.mem entry member)))

/-- A line that is part of no statement. -/
theorem Account.Explains.aside {a' : Account} (h : a.Explains o ls)
    (later : ∀ l ∈ ls, l.Before line) (same : a'.entries = a.entries)
    (lines : a'.lines.Perm (a.lines ++ [line])) (more : a.comments ⊆ a'.comments)
    (comments : ∀ l ∈ a'.comments, Meets o (ls ++ [line]) l fun s s' =>
      s' = (addComment s (trim l.text) l).value)
    (defaults : ∀ l ∈ a'.defaults, LineKind.classify (trim l.text) = .defaultExport ∧
      Meets o (ls ++ [line]) l fun s s' =>
        s.statement = none ∧ s' = (setDefault o s (trim l.text) l).value)
    (ignored : ∀ l ∈ a'.ignored, LineKind.classify (trim l.text) = .other ∧
      Meets o (ls ++ [line]) l fun s s' => s.statement = none ∧ s' = s) :
    a'.Explains o (ls ++ [line]) where
  once := lines.trans (h.once.append_right [line])
  ordered := same ▸ h.ordered
  interval _ entry _ source _ member start stop :=
    h.interval_append later more (same ▸ entry) source member start stop
  entries e entry :=
    have known := h.entries e (same ▸ entry)
    ⟨known.1, meets_append known.2 _⟩
  comments := comments
  defaults := defaults
  ignored := ignored

/-- A line that opens a statement or carries on the last one. -/
theorem Account.Explains.joined (h : a.Explains o ls) (later : ∀ l ∈ ls, l.Before line)
    (es : List Entry) (e : Entry) (kept : ∀ e' ∈ es, e' ∈ a.entries)
    (lines : (es ++ [e]).flatMap Entry.lines = a.entries.flatMap Entry.lines ++ [line])
    (covers : ∀ l ∈ ls ++ [line], e.first.index ≤ l.index → a.Covers e l)
    (opens : Target.opened? (trim e.first.text) = some e.target ∧
      Meets o (ls ++ [line]) e.first fun s _ => s.statement = none) :
    { a with entries := es ++ [e] : Account }.Explains o (ls ++ [line]) where
  once := by
    refine .trans (List.perm_iff_count.2 fun l => ?_) (h.once.append_right [line])
    simp only [Account.lines, lines, List.count_append]
    omega
  ordered := by
    rw [lines, List.pairwise_append]
    refine ⟨h.ordered, List.pairwise_singleton _ _, fun l member m isNew => ?_⟩
    obtain ⟨e', entry, inside⟩ := List.mem_flatMap.1 member
    obtain rfl := List.mem_singleton.1 isNew
    exact later l (h.mem entry inside)
  interval e' entry l source m member start stop := by
    rcases List.mem_append.1 entry with known | isNew
    · exact h.interval_append later (List.Subset.refl _) (kept e' known) source member start stop
    · obtain rfl := List.mem_singleton.1 isNew
      exact covers l source start
  entries e' entry := by
    rcases List.mem_append.1 entry with known | isNew
    · have known := h.entries e' (kept e' known)
      exact ⟨known.1, meets_append known.2 _⟩
    · obtain rfl := List.mem_singleton.1 isNew
      exact opens
  comments l member := meets_append (h.comments l member) _
  defaults l member := ⟨(h.defaults l member).1, meets_append (h.defaults l member).2 _⟩
  ignored l member := ⟨(h.ignored l member).1, meets_append (h.ignored l member).2 _⟩

end

/-! ### Accounts of runs -/

/-- An account of the lines so far. The statement that is open is the last one; it covers every
line since its opening, and the surface shows the statements before it. -/
structure Accounts (o : Options) (ls : List SourceLine) (s : State) (a : Account) : Prop where
  explains : a.Explains o ls
  rest : s.statement = none → Emits o s.surface a.entries
  gathering : ∀ st, s.statement = some st → ∃ es e, a.entries = es ++ [e] ∧
    Emits o s.surface es ∧ Holds st e ∧ ∀ l ∈ ls, e.first.index ≤ l.index → a.Covers e l

section
variable {o : Options} {ls : List SourceLine} {line : SourceLine} {s : State} {a : Account}

theorem accounts_settle (h : Accounts o ls s a) (t : Text) : Accounts o ls (settle o s t) a := by
  rcases settle_cases o s t with same | ⟨st, gathered, same⟩ <;> rw [same]
  · exact h
  · obtain ⟨es, e, entries, emits, holds, -⟩ := h.gathering st gathered
    refine ⟨h.explains, fun _ => entries ▸ emits_flush emits holds, fun st' open' => ?_⟩
    simp at open'

/-- A line that joins a statement makes it the last one of the account. -/
theorem exists_joined {st : Statement} (h : Accounts o ls s a) (later : ∀ l ∈ ls, l.Before line)
    (met : s = settle o (run o .start ls).value (trim line.text)) (joins : Joins s line st) :
    ∃ a' : Account, a'.Explains o (ls ++ [line]) ∧ ∃ es e, a'.entries = es ++ [e] ∧
      (∀ e' ∈ es, e' ∈ a.entries) ∧ Emits o s.surface es ∧ Holds (st.push line.text) e ∧
      ∀ l ∈ ls ++ [line], e.first.index ≤ l.index → a'.Covers e l := by
  cases joins with
  | opened idle opens =>
    rename_i target
    have covers : ∀ l ∈ ls ++ [line], line.index ≤ l.index → a.Covers ⟨target, line, []⟩ l := by
      intro l source start
      rcases List.mem_append.1 source with known | isNew
      · exact absurd start (Nat.not_le.2 (later l known))
      · exact .inl isNew
    have explains := h.explains.joined later a.entries ⟨target, line, []⟩
      (fun _ entry => entry) (by simp [Entry.lines]) covers ⟨opens, ls, [], rfl, met ▸ idle⟩
    exact ⟨_, explains, a.entries, _, rfl, fun _ entry => entry, h.rest idle,
      holds_fresh target line, covers⟩
  | extended gathered goesOn =>
    obtain ⟨es, e, entries, emits, holds, covered⟩ := h.gathering st gathered
    have covers : ∀ l ∈ ls ++ [line], e.first.index ≤ l.index → a.Covers (e.add line) l := by
      intro l source start
      rcases List.mem_append.1 source with known | isNew
      · exact (covered l known start).imp_left fun member => List.mem_append_left [line] member
      · exact .inl (List.mem_append_right e.lines isNew)
    have opens := h.explains.entries e (by simp [entries])
    have kept : ∀ e' ∈ es, e' ∈ a.entries := fun _ entry =>
      entries ▸ List.mem_append_left [e] entry
    have explains := h.explains.joined later es (e.add line) kept (by simp [entries])
      covers ⟨opens.1, meets_append opens.2 _⟩
    exact ⟨_, explains, es, _, rfl, kept, emits, holds_push holds line, covers⟩

/-- How a line met in `s` changes the statements of an account: it is put aside, or it joins a
statement, which is then the last one. -/
inductive Account.Adds (s : State) (line : SourceLine) (a a' : Account) : Prop
  | aside : a'.entries = a.entries → Adds s line a a'
  | joined {es : List Entry} {e : Entry} {st : Statement} : a'.entries = es ++ [e] →
      (∀ e' ∈ es, e' ∈ a.entries) → Joins s line st → Holds (st.push line.text) e → Adds s line a a'

/-- A line that is put aside leaves the surface's statements and the open one as they are. -/
theorem accounts_aside {s' : State} {a' : Account} (h : Accounts o ls s a)
    (explains : a'.Explains o (ls ++ [line])) (same : a'.entries = a.entries)
    (more : a.comments ⊆ a'.comments) (statement : s'.statement = s.statement)
    (emits : ∀ es, Emits o s.surface es → Emits o s'.surface es)
    (covered : ∀ st, s.statement = some st →
      st.target = .declaration .constant ∧ line ∈ a'.comments) :
    Accounts o (ls ++ [line]) s' a' := by
  refine ⟨explains, fun idle => same ▸ emits _ (h.rest (statement ▸ idle)), ?_⟩
  intro st gathered
  rw [statement] at gathered
  obtain ⟨es, e, entries, shown, holds, covers⟩ := h.gathering st gathered
  refine ⟨es, e, same.trans entries, emits es shown, holds, fun l source start => ?_⟩
  rcases List.mem_append.1 source with known | isNew
  · exact (covers l known start).mono more
  · obtain rfl := List.mem_singleton.1 isNew
    have covered := covered st gathered
    exact .inr ⟨holds.target ▸ covered.1, covered.2⟩

theorem target_of_diverts {target : Target} {t : Text} (h : target.diverts t = true) :
    target = .declaration .constant := by
  have constant : target.kind = .constant := by
    simp only [Target.diverts, Bool.and_eq_true, beq_iff_eq] at h
    exact h.1
  cases target with
  | importing => cases constant
  | reexport => cases constant
  | declaration kind => exact congrArg _ constant

theorem exists_accounts_route {s' : State} (h : Accounts o ls s a)
    (later : ∀ l ∈ ls, l.Before line)
    (met : s = settle o (run o .start ls).value (trim line.text))
    (left : s' = (run o .start (ls ++ [line])).value) (r : Route o s line s') :
    ∃ a', Accounts o (ls ++ [line]) s' a' ∧ a.Adds s line a' := by
  have comments (l) (member : l ∈ a.comments) := meets_append (h.explains.comments l member) [line]
  have defaults (l) (member : l ∈ a.defaults) := (⟨(h.explains.defaults l member).1,
    meets_append (h.explains.defaults l member).2 [line]⟩ : _ ∧ _)
  have ignored (l) (member : l ∈ a.ignored) := (⟨(h.explains.ignored l member).1,
    meets_append (h.explains.ignored l member).2 [line]⟩ : _ ∧ _)
  -- What the new line is met with, in the form in which the account keeps it.
  have here {p : State → State → Prop} (holds : p s s') : Meets o (ls ++ [line]) line p :=
    ⟨ls, [], rfl, met ▸ left ▸ holds⟩
  cases r with
  | ignored idle other =>
    refine ⟨{ a with ignored := a.ignored ++ [line] }, accounts_aside h
      (h.explains.aside later rfl ?_ (List.Subset.refl _) comments defaults ?_) rfl
      (List.Subset.refl _) rfl (fun _ shown => shown) fun st gathered => ?_, .aside rfl⟩
    · simp [Account.lines]
    · exact List.forall_mem_append.2
        ⟨ignored, List.forall_mem_singleton.2 ⟨other, here ⟨idle, rfl⟩⟩⟩
    · simp [idle] at gathered
  | comment reason =>
    refine ⟨{ a with comments := a.comments ++ [line] }, accounts_aside h
      (h.explains.aside later rfl ?_ (List.subset_append_left _ _) ?_ defaults ignored) rfl
      (List.subset_append_left _ _) (by rw [addComment_value])
      (fun _ shown => by rwa [addComment_value]) fun st gathered => ⟨?_, by simp⟩, .aside rfl⟩
    · refine List.perm_iff_count.2 fun l => ?_
      simp only [Account.lines, List.count_append]
      omega
    · exact List.forall_mem_append.2 ⟨comments, List.forall_mem_singleton.2 (here rfl)⟩
    · rcases reason with ⟨idle, -⟩ | ⟨st', same, diverts⟩
      · simp [idle] at gathered
      · obtain rfl : st' = st := by simpa [same] using gathered
        exact target_of_diverts diverts
  | default idle kind =>
    refine ⟨{ a with defaults := a.defaults ++ [line] }, accounts_aside h
      (h.explains.aside later rfl ?_ (List.Subset.refl _) comments ?_ ignored) rfl
      (List.Subset.refl _) (by rw [setDefault_value])
      (fun _ shown => ?_) fun st gathered => ?_, .aside rfl⟩
    · refine List.perm_iff_count.2 fun l => ?_
      simp only [Account.lines, List.count_append]
      omega
    · exact List.forall_mem_append.2
        ⟨defaults, List.forall_mem_singleton.2 ⟨kind, here ⟨idle, rfl⟩⟩⟩
    · rw [setDefault_value]
      exact ⟨shown.imports, shown.reexports, shown.declarations⟩
    · simp [idle] at gathered
  | kept joins =>
    obtain ⟨a', explains, es, e, entries, known, emits, holds, covers⟩ :=
      exists_joined h later met joins
    refine ⟨a', ⟨explains, fun idle => (nomatch idle), fun st gathered => ?_⟩,
      .joined entries known joins holds⟩
    obtain rfl := Option.some.inj gathered
    exact ⟨es, e, entries, emits, ⟨holds.target, holds.start, holds.lines⟩, covers⟩
  | closed joins =>
    obtain ⟨a', explains, es, e, entries, known, emits, holds, covers⟩ :=
      exists_joined h later met joins
    refine ⟨a', ⟨explains, fun _ => entries ▸ emits_flush emits holds, fun st gathered => ?_⟩,
      .joined entries known joins holds⟩
    simp at gathered

/-- The entry is a statement that the scanner holds when some line of `ls` joins it. -/
def Entry.Gathered (o : Options) (ls : List SourceLine) (e : Entry) : Prop :=
  ∃ before line after st, ls = before ++ line :: after ∧
    Joins (settle o (run o .start before).value (trim line.text)) line st ∧
    Holds (st.push line.text) e

/-- A run extends an account, and keeps what holds of every statement that is gathered. -/
theorem exists_accounts_run_of {p : Entry → Prop} {whole ms : List SourceLine}
    (all : whole = ls ++ ms) (gathered : ∀ e, e.Gathered o whole → p e)
    (h : Accounts o ls (run o .start ls).value a) (known : ∀ e ∈ a.entries, p e)
    (ordered : whole.Pairwise SourceLine.Before) :
    ∃ a', Accounts o whole (run o .start whole).value a' ∧ ∀ e ∈ a'.entries, p e := by
  induction ms generalizing ls a with
  | nil =>
    rw [List.append_nil] at all
    subst all
    exact ⟨a, h, known⟩
  | cons line ms ih =>
    have later : ∀ l ∈ ls, l.Before line := fun l member =>
      (List.pairwise_append.1 (all ▸ ordered)).2.2 l member line List.mem_cons_self
    have step : (run o .start (ls ++ [line])).value =
        route o (settle o (run o .start ls).value (trim line.text)) line := by
      rw [run_snoc, step_value]
    obtain ⟨a', next, adds⟩ := exists_accounts_route (accounts_settle h (trim line.text)) later rfl
      step.symm (route_cases o _ line)
    have each : ∀ e ∈ a'.entries, p e := by
      cases adds with
      | aside same => rwa [same]
      | joined entries kept joins holds =>
        intro e entry
        rw [entries] at entry
        rcases List.mem_append.1 entry with old | isNew
        · exact known e (kept e old)
        · obtain rfl := List.mem_singleton.1 isNew
          exact gathered e ⟨ls, line, ms, _, all, joins, holds⟩
    rw [← step] at next
    exact ih (by simpa using all) next each

theorem accounts_nil (o : Options) : Accounts o [] (run o .start []).value ⟨[], [], [], []⟩ := by
  refine ⟨⟨.nil, .nil, ?_, ?_, ?_, ?_, ?_⟩, fun _ => ⟨rfl, rfl, rfl⟩, fun st same => nomatch same⟩
    <;> simp

/-- The surface of a source shows the statements of its account. -/
theorem Accounts.emits {source : Text}
    (h : Accounts o (SourceLine.ofText source) (run o .start (SourceLine.ofText source)).value a) :
    Emits o (scan o source).value a.entries := by
  rw [scan_value, finish_surface]
  cases gathered : (run o .start (SourceLine.ofText source)).value.statement with
  | none => exact h.rest gathered
  | some st =>
    obtain ⟨es, e, entries, shown, holds, -⟩ := h.gathering st gathered
    exact entries ▸ emits_flush shown holds

/-- A source has an account of its lines, whose statements are those that the scanner gathers. -/
theorem exists_accounts (o : Options) (source : Text) :
    ∃ a, Accounts o (SourceLine.ofText source) (run o .start (SourceLine.ofText source)).value a ∧
      ∀ e ∈ a.entries, e.Gathered o (SourceLine.ofText source) :=
  exists_accounts_run_of (List.nil_append _).symm (fun _ held => held) (accounts_nil o) (by simp)
    (SourceLine.numbered_pairwise 0 _)

end

theorem Entry.declaration?_line {style : Style} {e : Entry} {d : DeclarationKind × Text × Int}
    (h : e.declaration? style = some d) : d.2.2 = e.first.number := by
  cases target : e.target with
  | importing | reexport => simp [declaration?, target] at h
  | declaration kind =>
    simp only [declaration?, target, Option.some.injEq] at h
    rw [← h]

/-- **Every line has one role, and the surface keeps the order of the source.** There is an account
of the lines such that the imports, declarations and re-exports are what its statements become.
The statements are intervals of the source in increasing order, and a declaration carries the number
of its opening line. -/
theorem lines_accounted (o : Options) (source : Text) :
    (∃ a : Account, a.Explains o (SourceLine.ofText source) ∧
      Emits o (scan o source).value a.entries ∧
      a.entries.Pairwise fun e e' => ∀ l ∈ e.lines, ∀ m ∈ e'.lines, l.Before m) ∧
    ((scan o source).value.declarations.map Declaration.line).Pairwise (· < ·) := by
  obtain ⟨a, accounts, -⟩ := exists_accounts o source
  have emits := accounts.emits
  have ordered := (List.pairwise_flatMap.1 accounts.explains.ordered).2
  refine ⟨⟨a, accounts.explains, emits, ordered⟩, ?_⟩
  have lines : (scan o source).value.declarations.map Declaration.line =
      (a.entries.filterMap (Entry.declaration? o.style)).map fun d => d.2.2 := by
    rw [← emits.declarations, List.map_map]
    rfl
  rw [lines, List.pairwise_map, List.pairwise_filterMap]
  refine ordered.imp fun {e e'} before d shown d' shown' => ?_
  have opening : e.first.index < e'.first.index :=
    before e.first List.mem_cons_self e'.first List.mem_cons_self
  rw [Entry.declaration?_line shown, Entry.declaration?_line shown']
  simp only [SourceLine.number]
  omega

end Scan

end Ambient
