import Ambient.Proofs.Atom
import Ambient.Proofs.Trim
import Ambient.Scan.Line

/-!
The opening words of a statement. What a line opens and the kind of declaration it shows are read
by two tables; they agree on every line (`classify_eq_default_iff` and the lemmas after it). The
kind is stable: no reader of opening words looks behind a bracket (`Local`), and an alias shows with
its name, so appending to such a text leaves the kind that it shows.
-/

namespace Ambient

/-! ### Words at the head of a text -/

/-- Of two words at the head of a text, one begins with the other. -/
theorem not_isPrefix_of_clash {v w t : Text} (h : v <+: t) (clash : ¬ v <+: w ∧ ¬ w <+: v) :
    ¬ w <+: t := by
  intro other
  rcases List.prefix_or_prefix_of_prefix h other with inside | inside
  · exact clash.1 inside
  · exact clash.2 inside

theorem after?_of_clash {v w t : Text} (h : v <+: t) (clash : ¬ v <+: w ∧ ¬ w <+: v) :
    after? w t = none := by
  cases found : after? w t with
  | none => rfl
  | some r =>
    exact absurd ⟨r, (after?_eq_some_iff.1 found).symm⟩ (not_isPrefix_of_clash h clash)

theorem startsWithWord_of_clash {v w t : Text} (h : v <+: t) (clash : ¬ v <+: w ∧ ¬ w <+: v) :
    startsWithWord w t = false := by
  rw [startsWithWord, after?_of_clash h clash]
  rfl

theorem startsWith_of_clash {v w t : Text} (h : v <+: t) (clash : ¬ v <+: w ∧ ¬ w <+: v) :
    startsWith w t = false := by
  cases starts : startsWith w t with
  | false => rfl
  | true => exact absurd (List.isPrefixOf_iff_prefix.1 starts) (not_isPrefix_of_clash h clash)

theorem afterSpaced?_of_clash {v w t : Text} (h : v <+: t) (clash : ¬ v <+: w ∧ ¬ w <+: v) :
    afterSpaced? w t = none := by
  rw [afterSpaced?, after?_of_clash h clash]
  rfl

theorem afterSpaced?_eq_some {w t r : Text} (h : afterSpaced? w t = some r) :
    ∃ b rest, t = w ++ b :: rest ∧ isBlank b = true ∧ r = trimLeft rest := by
  obtain ⟨behind, found, read⟩ := Option.bind_eq_some_iff.1 h
  cases behind with
  | nil => cases read
  | cons b rest =>
    rw [afterBlanks?] at read
    split at read
    · next blank =>
      exact ⟨b, rest, after?_eq_some_iff.1 found, blank, (Option.some.inj read).symm⟩
    · cases read

theorem prefix_of_afterSpaced? {w t r : Text} (h : afterSpaced? w t = some r) : w <+: t := by
  obtain ⟨b, rest, rfl, -⟩ := afterSpaced?_eq_some h
  exact List.prefix_append w _

theorem prefix_of_startsWithWord {w t : Text} (h : startsWithWord w t = true) : w <+: t := by
  obtain ⟨r, found, -⟩ := (Option.any_eq_true _ _).1 h
  exact ⟨r, (after?_eq_some_iff.1 found).symm⟩

theorem prefix_of_skipSpaced {v w t : Text} (h : v <+: skipSpaced w t) : v <+: t ∨ w <+: t := by
  unfold skipSpaced at h
  cases found : afterSpaced? w t with
  | none =>
    rw [found] at h
    exact .inl h
  | some r => exact .inr (prefix_of_afterSpaced? found)

/-! ### Kinds of lines and kinds of declarations -/

namespace LineKind

theorem opensDoc_of_export {t : Text} (h : "export".toList <+: t) : opensDoc t = false := by
  obtain ⟨r, rfl⟩ := h
  rfl

theorem opensImport_of_export {t : Text} (h : "export".toList <+: t) : opensImport t = false := by
  rw [opensImport, after?_of_clash h (by decide)]
  rfl

end LineKind

namespace DeclarationKind

open LineKind (classify opensReexport)

section
variable {t r : Text}

theorem startsWithWord_export (h : afterExport? t = some r) :
    startsWithWord "export".toList t = true := by
  obtain ⟨b, rest, rfl, blank, -⟩ := afterSpaced?_eq_some h
  have notWord : isWord b = false := by
    cases word : isWord b with
    | false => rfl
    | true =>
      have solid := isBlank_of_isNameChar (c := b) (by simp [isNameChar, word])
      rw [blank] at solid
      cases solid
  rw [startsWithWord, after?_eq_some_iff.2 rfl]
  simp [wordEnd, notWord]

/-- What a re-export shows behind the word `export`. -/
theorem opensReexport_eq (h : afterExport? t = some r) :
    opensReexport t = (startsWithAny [['*'], ['{']] r ||
      (after? "type".toList r).any fun r => startsWith ['{'] (trimLeft r)) := by
  obtain ⟨b, rest, rfl, blank, rfl⟩ := afterSpaced?_eq_some h
  have trimmed : trimLeft (b :: rest) = trimLeft rest := List.dropWhile_cons_of_pos blank
  rw [opensReexport, after?_eq_some_iff.2 rfl, Option.any_some, trimmed]

theorem noSign_of_word {w : Text} (word : w <+: r)
    (clash : ∀ v ∈ [['*'], ['{']], ¬ w <+: v ∧ ¬ v <+: w) :
    startsWithAny [['*'], ['{']] r = false := by
  simp only [startsWithAny, List.any_cons, List.any_nil, Bool.or_false, Bool.or_eq_false_iff]
  exact ⟨startsWith_of_clash word (clash _ (by simp)), startsWith_of_clash word (clash _ (by simp))⟩

/-- A word other than `type` opens no re-export. -/
theorem opensReexport_of_word {w : Text} (h : afterExport? t = some r) (word : w <+: r)
    (clash : ∀ v ∈ [['*'], ['{'], "type".toList], ¬ w <+: v ∧ ¬ v <+: w) :
    opensReexport t = false := by
  have signs : startsWithAny [['*'], ['{']] r = false :=
    noSign_of_word word fun v member => clash v (List.mem_append_left ["type".toList] member)
  rw [opensReexport_eq h, signs, after?_of_clash word (clash _ (by simp))]
  rfl

/-- Behind `type` comes a name in an alias, and a brace in a re-export. -/
theorem opensReexport_of_alias {behind : Text} (h : afterExport? t = some r)
    (type : afterSpaced? "type".toList r = some behind)
    (named : behind.head?.any isNameStart = true) : opensReexport t = false := by
  have signs : startsWithAny [['*'], ['{']] r = false :=
    noSign_of_word (prefix_of_afterSpaced? type) (by decide)
  obtain ⟨b, rest, rfl, blank, rfl⟩ := afterSpaced?_eq_some type
  have trimmed : trimLeft (b :: rest) = trimLeft rest := List.dropWhile_cons_of_pos blank
  have inner : startsWith ['{'] (trimLeft rest) = false := by
    cases behind : trimLeft rest with
    | nil => rfl
    | cons c u =>
      have start : isNameStart c = true := by simpa [behind] using named
      have other : '{' ≠ c := by
        rintro rfl
        exact absurd start (by decide)
      simp [startsWith, List.isPrefixOf, other]
  rw [opensReexport_eq h, signs, after?_eq_some_iff.2 rfl, Option.any_some, trimmed, inner]
  rfl

/-- An export that is neither a default export nor a re-export opens a declaration. -/
theorem classify_of_export (h : afterExport? t = some r) (default : opensDefault t = false)
    (reexport : opensReexport t = false) :
    classify t = if opensConstant t then .constant else .declaration := by
  have export' : "export".toList <+: t := prefix_of_afterSpaced? h
  simp only [classify, LineKind.opensDoc_of_export export', LineKind.opensImport_of_export export',
    default, reexport, startsWithWord_export h, Bool.false_eq_true, ↓reduceIte]

end

/-- What the opening of a text shows when it has a kind. -/
def Shows (t : Text) : DeclarationKind → Prop
  | default => opensDefault t = true
  | constant => opensDefault t = false ∧ opensConstant t = true
  | interface => opensDefault t = false ∧ opensConstant t = false ∧ opensInterface t = true
  | typeAlias => opensDefault t = false ∧ opensConstant t = false ∧ opensAlias t = true
  | function => opensDefault t = false ∧ opensConstant t = false ∧ opensFunction t = true
  | verbatim => opensDefault t = false

theorem shows_detect {t : Text} (head : trimLeft t = t) : Shows t (detect t) := by
  simp only [detect, head]
  repeat' split
  all_goals simp_all [Shows]

theorem detect_eq_default_iff {t : Text} (head : trimLeft t = t) :
    detect t = .default ↔ opensDefault t = true := by
  constructor
  · intro kind
    have shows' := shows_detect head
    rwa [kind] at shows'
  · intro opens
    simp only [detect, head, opens, ↓reduceIte]

theorem classify_eq_default_iff {t : Text} :
    classify t = .defaultExport ↔ opensDefault t = true := by
  constructor
  · intro kind
    simp only [classify] at kind
    repeat' split at kind
    all_goals first | assumption | cases kind
  · intro opens
    obtain ⟨r, found, -⟩ := (Option.any_eq_true _ _).1 opens
    have export' : "export".toList <+: t := prefix_of_afterSpaced? found
    simp only [classify, LineKind.opensDoc_of_export export',
      LineKind.opensImport_of_export export', opens, Bool.false_eq_true, ↓reduceIte]

theorem classify_of_constant {t : Text} (default : opensDefault t = false)
    (constant : opensConstant t = true) : classify t = .constant := by
  obtain ⟨r, found, word⟩ := (Option.any_eq_true _ _).1 constant
  have reexport : opensReexport t = false :=
    opensReexport_of_word found (prefix_of_startsWithWord word) (by decide)
  rw [classify_of_export found default reexport, if_pos constant]

/-- A constant is one by its first words, or an enumeration, which is kept as it is. -/
theorem detect_of_classify_constant {t : Text} (head : trimLeft t = t)
    (h : classify t = .constant) : detect t = .constant ∨ detect t = .verbatim := by
  have opens : opensDefault t = false ∧ opensConstant t = true := by
    simp only [classify] at h
    repeat' split at h
    all_goals cases h
    next default _ constant => exact ⟨by simpa using default, constant⟩
  simp only [detect, head, opens.1, opens.2, Bool.false_eq_true, ↓reduceIte]
  split
  · exact .inr rfl
  · exact .inl rfl

theorem exists_afterDeclare? {t : Text} {test : Text → Bool}
    (h : (afterDeclare? t).any test = true) :
    ∃ r, afterExport? t = some r ∧ test (skipSpaced "declare".toList r) = true := by
  obtain ⟨r, found, holds⟩ := (Option.any_eq_true _ _).1 h
  obtain ⟨r, read, rfl⟩ := Option.map_eq_some_iff.1 found
  exact ⟨r, read, holds⟩

/-- A word that stands behind `export`, or behind `declare` there. -/
theorem opensReexport_of_declared {t r w : Text} (h : afterExport? t = some r)
    (word : w <+: skipSpaced "declare".toList r)
    (clash : ∀ v ∈ [['*'], ['{'], "type".toList], ¬ w <+: v ∧ ¬ v <+: w) :
    opensReexport t = false := by
  rcases prefix_of_skipSpaced word with bare | declared
  · exact opensReexport_of_word h bare clash
  · exact opensReexport_of_word h declared (by decide)

theorem exists_of_opensAlias {t : Text} (h : opensAlias t = true) :
    ∃ r behind, afterExport? t = some r ∧
      afterSpaced? "type".toList (skipSpaced "declare".toList r) = some behind ∧
      behind.head?.any isNameStart = true := by
  obtain ⟨behind, found, named⟩ := (Option.any_eq_true _ _).1 h
  obtain ⟨_, read, type⟩ := Option.bind_eq_some_iff.1 found
  obtain ⟨r, export', rfl⟩ := Option.map_eq_some_iff.1 read
  exact ⟨r, behind, export', type, named⟩

/-- Interfaces, aliases and functions are declarations. -/
theorem classify_of_detect {t : Text} (head : trimLeft t = t)
    (h : detect t = .interface ∨ detect t = .typeAlias ∨ detect t = .function) :
    classify t = .declaration := by
  have shows' := shows_detect head
  have declared (r : Text) (found : afterExport? t = some r) (default : opensDefault t = false)
      (constant : opensConstant t = false) (reexport : opensReexport t = false) :
      classify t = .declaration := by
    rw [classify_of_export found default reexport, constant]
    rfl
  rcases h with kind | kind | kind
  · rw [kind] at shows'
    obtain ⟨default, constant, opens⟩ := shows'
    obtain ⟨r, found, word⟩ := exists_afterDeclare? opens
    exact declared r found default constant
      (opensReexport_of_declared found (prefix_of_startsWithWord word) (by decide))
  · rw [kind] at shows'
    obtain ⟨default, constant, opens⟩ := shows'
    obtain ⟨r, behind, found, type, named⟩ := exists_of_opensAlias opens
    refine declared r found default constant ?_
    cases skipped : afterSpaced? "declare".toList r with
    | some _ => exact opensReexport_of_word found (prefix_of_afterSpaced? skipped) (by decide)
    | none =>
      rw [skipSpaced, skipped] at type
      exact opensReexport_of_alias found type named
  · rw [kind] at shows'
    obtain ⟨default, constant, opens⟩ := shows'
    obtain ⟨r, found, word⟩ := exists_afterDeclare? opens
    refine declared r found default constant ?_
    have words : "function".toList <+: skipSpaced "declare".toList r ∨
        "async".toList <+: skipSpaced "declare".toList r :=
      prefix_of_skipSpaced (prefix_of_startsWithWord word)
    rcases words with bare | async
    · exact opensReexport_of_declared found bare (by decide)
    · exact opensReexport_of_declared found async (by decide)

end DeclarationKind

/-! ### Texts that go on -/

/-- The text holds a bracket. -/
def Bracketed (t : Text) : Prop := ∃ c ∈ t, c ∈ openers ++ closers

/-- The word holds no bracket. -/
def Unbracketed (w : Text) : Prop := ∀ c ∈ w, c ∉ openers ++ closers

instance (w : Text) : Decidable (Unbracketed w) := inferInstanceAs (Decidable (∀ c ∈ w, _))

theorem Bracketed.ne_nil {t : Text} (h : Bracketed t) : t ≠ [] := by
  rintro rfl
  obtain ⟨c, member, -⟩ := h
  cases member

theorem Bracketed.of_append {w r : Text} (free : Unbracketed w) (h : Bracketed (w ++ r)) :
    Bracketed r := by
  obtain ⟨c, member, sign⟩ := h
  rcases List.mem_append.1 member with inside | behind
  · exact absurd sign (free c inside)
  · exact ⟨c, behind, sign⟩

theorem unbracketed_of_blank {w : Text} (h : ∀ c ∈ w, isBlank c = true) : Unbracketed w := by
  intro c member sign
  have signs : ∀ d ∈ openers ++ closers, isBlank d = false := by decide
  have solid : isBlank c = false := signs c sign
  rw [h c member] at solid
  cases solid

theorem Bracketed.trimLeft {t : Text} (h : Bracketed t) : Bracketed (trimLeft t) := by
  have split : t.takeWhile isBlank ++ Ambient.trimLeft t = t := List.takeWhile_append_dropWhile
  have blank : ∀ c ∈ t.takeWhile isBlank, isBlank c = true := fun c member =>
    List.all_eq_true.1 List.all_takeWhile c member
  rw [← split] at h
  exact h.of_append (unbracketed_of_blank blank)

/-- Blanks before a text are found without what stands behind it. -/
theorem trimLeft_append {t : Text} (h : trimLeft t ≠ []) (u : Text) :
    trimLeft (t ++ u) = trimLeft t ++ u := by
  rw [trimLeft, List.dropWhile_append]
  split
  · next empty => exact absurd (List.isEmpty_iff.1 empty) h
  · rfl

theorem after?_append_of_bracketed {w t : Text} (free : Unbracketed w) (h : Bracketed t)
    (u : Text) : after? w (t ++ u) = (after? w t).map (· ++ u) := by
  induction w generalizing t with
  | nil => rfl
  | cons c w ih =>
    cases t with
    | nil => exact absurd rfl h.ne_nil
    | cons d t =>
      by_cases same : c = d
      · subst same
        have rest : Bracketed t := by
          refine Bracketed.of_append (w := [c]) ?_ h
          exact fun d member => free d (by simp_all)
        have later := ih (fun d member => free d (List.mem_cons_of_mem c member)) rest
        simpa [after?] using later
      · simp [after?, same]

/-- The reader finds its words before any bracket: what stands behind the text does not matter, and
the bracket is still to come. -/
structure Local (read : Text → Option Text) : Prop where
  rest : ∀ {t r}, Bracketed t → read t = some r → Bracketed r
  append : ∀ {t}, Bracketed t → ∀ u, read (t ++ u) = (read t).map (· ++ u)

/-- The test is decided before any bracket. -/
def LocalTest (test : Text → Bool) : Prop := ∀ t, Bracketed t → ∀ u, test (t ++ u) = test t

theorem local_afterSpaced? {w : Text} (free : Unbracketed w) : Local (afterSpaced? w) := by
  have rest {t r : Text} (h : Bracketed t) (found : afterSpaced? w t = some r) : Bracketed r := by
    obtain ⟨b, rest, rfl, blank, rfl⟩ := afterSpaced?_eq_some found
    have behind : Bracketed (b :: rest) := h.of_append free
    have sole : Unbracketed [b] := unbracketed_of_blank (by simpa using blank)
    exact (behind.of_append (w := [b]) sole).trimLeft
  refine ⟨rest, fun {t} h u => ?_⟩
  have read := after?_append_of_bracketed free h u
  rw [afterSpaced?, afterSpaced?, read]
  cases found : after? w t with
  | none => rfl
  | some r =>
    have behind : Bracketed r := (after?_eq_some_iff.1 found ▸ h).of_append free
    cases r with
    | nil => exact absurd rfl behind.ne_nil
    | cons b r =>
      by_cases blank : isBlank b = true
      · have sole : Unbracketed [b] := unbracketed_of_blank (by simpa using blank)
        have trimmed := (behind.of_append (w := [b]) sole).trimLeft.ne_nil
        simp [afterBlanks?, blank, trimLeft_append trimmed]
      · simp [afterBlanks?, blank]

theorem local_skipSpaced {w : Text} (free : Unbracketed w) :
    Local fun t => some (skipSpaced w t) := by
  have reads := local_afterSpaced? free
  refine ⟨fun {t r} h found => ?_, fun {t} h u => ?_⟩
  · obtain rfl := Option.some.inj found
    unfold skipSpaced
    cases skipped : afterSpaced? w t with
    | none => exact h
    | some r => exact reads.rest h skipped
  · simp only [skipSpaced, reads.append h u]
    cases afterSpaced? w t <;> rfl

theorem Local.bind {f g : Text → Option Text} (hf : Local f) (hg : Local g) :
    Local fun t => (f t).bind g := by
  refine ⟨fun {t r} h found => ?_, fun {t} h u => ?_⟩
  · obtain ⟨behind, first, second⟩ := Option.bind_eq_some_iff.1 found
    exact hg.rest (hf.rest h first) second
  · simp only [hf.append h u]
    cases first : f t with
    | none => rfl
    | some r => exact hg.append (hf.rest h first) u

theorem Local.any {f : Text → Option Text} {test : Text → Bool} (hf : Local f)
    (ht : LocalTest test) : LocalTest fun t => (f t).any test := by
  intro t h u
  simp only [hf.append h u]
  cases first : f t with
  | none => rfl
  | some r => exact ht r (hf.rest h first) u

theorem localTest_startsWithWord {w : Text} (free : Unbracketed w) :
    LocalTest (startsWithWord w) := by
  intro t h u
  rw [startsWithWord, startsWithWord, after?_append_of_bracketed free h u]
  cases found : after? w t with
  | none => rfl
  | some r =>
    have behind : Bracketed r := (after?_eq_some_iff.1 found ▸ h).of_append free
    obtain ⟨c, r, rfl⟩ := List.exists_cons_of_ne_nil behind.ne_nil
    rfl

theorem local_afterExport? : Local afterExport? := local_afterSpaced? (by decide)

theorem local_afterDeclare? : Local afterDeclare? := by
  have reads := local_afterExport?.bind (local_skipSpaced (w := "declare".toList) (by decide))
  have same : (fun t => (afterExport? t).bind fun r => some (skipSpaced "declare".toList r)) =
      afterDeclare? := by
    funext t
    unfold afterDeclare?
    cases afterExport? t <;> rfl
  rwa [same] at reads

theorem afterSpaced?_append {w t r : Text} (h : afterSpaced? w t = some r) (solid : r ≠ [])
    (u : Text) : afterSpaced? w (t ++ u) = some (r ++ u) := by
  obtain ⟨b, rest, rfl, blank, rfl⟩ := afterSpaced?_eq_some h
  have found : after? w (w ++ b :: rest ++ u) = some (b :: (rest ++ u)) :=
    after?_eq_some_iff.2 (by simp)
  rw [afterSpaced?, found, Option.bind_some, afterBlanks?, if_pos blank, trimLeft_append solid]

namespace DeclarationKind

theorem localTest_opensDefault : LocalTest opensDefault :=
  local_afterExport?.any (localTest_startsWithWord (by decide))

theorem localTest_opensConstEnum : LocalTest opensConstEnum :=
  (local_afterDeclare?.bind (local_afterSpaced? (by decide))).any
    (localTest_startsWithWord (by decide))

theorem localTest_opensConstant : LocalTest opensConstant :=
  local_afterExport?.any (localTest_startsWithWord (by decide))

theorem localTest_opensInterface : LocalTest opensInterface :=
  local_afterDeclare?.any (localTest_startsWithWord (by decide))

theorem localTest_opensAlias : LocalTest opensAlias := by
  refine (local_afterDeclare?.bind (local_afterSpaced? (by decide))).any fun t h u => ?_
  obtain ⟨c, r, rfl⟩ := List.exists_cons_of_ne_nil h.ne_nil
  rfl

theorem localTest_opensFunction : LocalTest opensFunction := by
  have skips := local_skipSpaced (w := "async".toList) (by decide)
  have word : LocalTest (startsWithWord "function".toList) := localTest_startsWithWord (by decide)
  exact local_afterDeclare?.any (skips.any word)

/-- No bracket stands in an opening, so a text with one shows its kind whatever follows. -/
theorem detect_append_of_bracketed {t : Text} (h : Bracketed t) (u : Text) :
    detect (t ++ u) = detect t := by
  have inner : Bracketed (trimLeft t) := h.trimLeft
  simp only [detect, trimLeft_append inner.ne_nil, localTest_opensDefault _ inner u,
    localTest_opensConstEnum _ inner u, localTest_opensConstant _ inner u,
    localTest_opensInterface _ inner u, localTest_opensAlias _ inner u,
    localTest_opensFunction _ inner u]

/-- No other opening reads `type` where an alias has it. -/
theorem detect_of_opensAlias {t : Text} (head : trimLeft t = t) (h : opensAlias t = true) :
    detect t = .typeAlias := by
  obtain ⟨r, behind, found, type, -⟩ := exists_of_opensAlias h
  have word : "type".toList <+: skipSpaced "declare".toList r := prefix_of_afterSpaced? type
  have first (w : Text) (clash : (¬ "type".toList <+: w ∧ ¬ w <+: "type".toList) ∧
      ¬ "declare".toList <+: w ∧ ¬ w <+: "declare".toList) : startsWithWord w r = false := by
    rcases prefix_of_skipSpaced word with bare | declared
    · exact startsWithWord_of_clash bare clash.1
    · exact startsWithWord_of_clash declared clash.2
  have default : opensDefault t = false := by
    rw [opensDefault, found]
    exact first _ (by decide)
  have constant : opensConstant t = false := by
    rw [opensConstant, found]
    exact first _ (by decide)
  have constEnum : opensConstEnum t = false := by
    rw [opensConstEnum, afterDeclare?, found, Option.map_some, Option.bind_some,
      afterSpaced?_of_clash word (by decide)]
    rfl
  have interface : opensInterface t = false := by
    rw [opensInterface, afterDeclare?, found]
    exact startsWithWord_of_clash word (by decide)
  simp only [detect, head, default, constEnum, constant, interface, h, Bool.false_eq_true,
    ↓reduceIte]

/-- The name of an alias stands at its place whatever follows. -/
theorem opensAlias_append {t : Text} (h : opensAlias t = true) (u : Text) :
    opensAlias (t ++ u) = true := by
  obtain ⟨r, behind, found, type, named⟩ := exists_of_opensAlias h
  obtain ⟨c, rest, rfl⟩ : ∃ c rest, behind = c :: rest := by
    cases behind with
    | nil => cases named
    | cons c rest => exact ⟨c, rest, rfl⟩
  have later := afterSpaced?_append type (by simp) u
  have skipped : skipSpaced "declare".toList (r ++ u) = skipSpaced "declare".toList r ++ u := by
    cases declared : afterSpaced? "declare".toList r with
    | none =>
      rw [skipSpaced, declared] at type
      have word : "type".toList <+: r ++ u :=
        (prefix_of_afterSpaced? type).trans (List.prefix_append r u)
      rw [skipSpaced, skipSpaced, declared, afterSpaced?_of_clash word (by decide)]
      rfl
    | some r' =>
      have solid : r' ≠ [] := by
        rintro rfl
        rw [skipSpaced, declared] at type
        cases type
      rw [skipSpaced, skipSpaced, declared, afterSpaced?_append declared solid u]
      rfl
  have solid : r ≠ [] := by
    rintro rfl
    cases type
  have export' : afterExport? (t ++ u) = some (r ++ u) := afterSpaced?_append found solid u
  rw [opensAlias, afterDeclare?, export', Option.map_some, Option.bind_some, skipped, later]
  exact named

theorem detect_append_of_alias {t : Text} (head : trimLeft t = t) (h : detect t = .typeAlias)
    (u : Text) : detect (t ++ u) = .typeAlias := by
  have shows' := shows_detect head
  rw [h] at shows'
  have opens : opensAlias (t ++ u) = true := opensAlias_append shows'.2.2 u
  have solid : trimLeft t ≠ [] := by
    rintro empty
    rw [head] at empty
    subst empty
    cases h
  refine detect_of_opensAlias ?_ opens
  rw [trimLeft_append solid, head]

end DeclarationKind

end Ambient
