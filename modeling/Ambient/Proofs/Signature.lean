import Ambient.Proofs.Forms

/-!
Function signatures: a name, bounds for type parameters, a parameter list and a result. Whatever
body stands behind a signature, its brace is the first that no type takes, and the ambient form of
the function is the signature alone (`signature_kept`).
-/

namespace Ambient

open Atom Phrase Nesting

/-- Words that make a type together with what follows them; none of them names a type. -/
def typeOperators : List Text :=
  ["keyof", "typeof", "extends", "is", "readonly", "infer"].map String.toList

/-- No name that the phrase is made of is a type operator; the names of items may be. -/
def Phrase.Ordinary {p : Char → Bool} {k : Category} : Phrase p k → Prop
  | name n | typeof n => n.text ∉ typeOperators
  | literal _ _ | emptyObject => True
  | array t | thunk t | group t | keyof t | unnamed t | named _ t => t.Ordinary
  | generic _ arguments => arguments.Ordinary
  | tuple elements => elements.Ordinary
  | object fields => fields.Ordinary
  | function params result => params.Ordinary ∧ result.Ordinary
  | joined _ left right => left.Ordinary ∧ right.Ordinary
  | single x => x.Ordinary
  | cons x xs => x.Ordinary ∧ xs.Ordinary

/-- A type whose literals hold anything that needs no escape. -/
abbrev SignatureType : Type := TypeText fun _ => true

/-- A type parameter with its bound. -/
structure Bound where
  name : Word
  type : SignatureType

structure Signature where
  name : Word
  bounds : List Bound
  params : Option (Phrase (fun _ => true) (.list true .comma))
  result : Option SignatureType
  /-- A name at the end of a signature is no type operator. -/
  ordinary : ∀ t ∈ result, t.Ordinary

/-! ### Writing a signature -/

def Bound.atoms (b : Bound) : List Atom :=
  [.word b.name, .gap .space, .word .extendsWord, .gap .space] ++ b.type.atoms

namespace Signature

/-- Bounds with commas between them. -/
def list (first : Bound) : List Bound → List Atom
  | [] => first.atoms
  | b :: bs => first.atoms ++ [.sign .comma, .gap .space] ++ list b bs

/-- The bounds in angle signs, where there are some. -/
def generics : List Bound → List Atom
  | [] => []
  | b :: bs => [.sign .less] ++ list b bs ++ [.sign .greater]

/-- The result behind its colon. -/
def returns : Option SignatureType → List Atom
  | none => []
  | some t => [.sign .colon, .gap .space] ++ t.atoms

/-- The name and what follows it. -/
def named (s : Signature) : List Atom :=
  [.word s.name] ++ generics s.bounds ++ [.bracket .openParen] ++ s.params.elim [] Phrase.atoms ++
    [.bracket .closeParen] ++ returns s.result

/-- A signature as it is declared. -/
def atoms (s : Signature) : List Atom := [.word .functionWord, .gap .space] ++ s.named

end Signature

/-- What may stand around the word `function` in an exported function. -/
structure Modifiers where
  declared : Bool
  async : Bool
  /-- The star of a generator, with a blank before it and after it or without. -/
  star : Option (Bool × Bool)

namespace Modifiers

def blank (present : Bool) : List Atom := if present then [.gap .space] else []

def prefixed (w : Word) (present : Bool) : List Atom :=
  if present then [.word w, .gap .space] else []

/-- What stands between `function` and the name. -/
def between (m : Modifiers) : List Atom :=
  match m.star with
  | none => [.gap .space]
  | some (before, after) => blank before ++ [.sign .star] ++ blank after

/-- Everything before the name. -/
def atoms (m : Modifiers) : List Atom :=
  [.word .exportWord, .gap .space] ++ prefixed .declareWord m.declared ++
    prefixed .asyncWord m.async ++ [.word .functionWord] ++ m.between

end Modifiers

/-! ### Signatures are sound -/

theorem Bound.spans (b : Bound) : Spans true b.atoms :=
  b.type.spans.prepend (sound_of_isSound rfl) ⟨_, rfl, rfl⟩ ⟨_, rfl, leads_gap _ _⟩

namespace Signature

theorem spans_list (b : Bound) (bs : List Bound) : Spans true (list b bs) := by
  induction bs generalizing b with
  | nil => exact b.spans
  | cons c cs ih =>
    exact b.spans.join (ih c) (sound_of_isSound rfl) ⟨_, rfl, trails_sign (by decide)⟩
      ⟨_, rfl, leads_gap _ _⟩

/-- The name, the bounds and the opening parenthesis. -/
theorem sound_opening (s : Signature) :
    Sound ([.word s.name] ++ generics s.bounds ++ [.bracket .openParen]) := by
  cases s.bounds with
  | nil => exact sound_of_isSound rfl
  | cons b bs =>
    have sound : Sound ([.word s.name, .sign .less] ++ list b bs ++
        [.sign .greater, .bracket .openParen]) :=
      (spans_list b bs).sound_between (sound_of_isSound rfl) (sound_of_isSound rfl)
        ⟨_, rfl, leads_less _⟩ ⟨_, rfl, trails_sign (by decide)⟩
    simpa [generics] using sound

theorem spans_named (s : Signature) : Spans true s.named := by
  have last : ([.word s.name] ++ generics s.bounds ++ [.bracket .openParen] : List Atom).getLast? =
      some (.bracket .openParen) := List.getLast?_concat
  have parameters : Spans true ([.word s.name] ++ generics s.bounds ++ [.bracket .openParen] ++
      s.params.elim [] Phrase.atoms ++ [.bracket .closeParen]) := by
    cases s.params with
    | none =>
      refine ⟨?_, ⟨_, rfl, rfl⟩, ⟨_, List.getLast?_concat, rfl⟩⟩
      refine List.isChain_append.2 ⟨by simpa using s.sound_opening, .singleton _, ?_⟩
      intro x final y head
      obtain rfl : .bracket .closeParen = y := Option.some.inj head
      rw [Option.elim_none, List.append_nil, last] at final
      obtain rfl : .bracket .openParen = x := Option.some.inj final
      rfl
    | some ps =>
      exact (ps.spans.prepend s.sound_opening ⟨_, rfl, rfl⟩ ⟨_, last, leads_bracket _ _⟩).append
        (.singleton _) ⟨_, rfl, trails_bracket _⟩ ⟨_, rfl, rfl⟩
  unfold named
  cases s.result with
  | none => simpa [returns] using parameters
  | some t =>
    rw [returns, ← List.append_assoc]
    exact parameters.join t.spans (sound_of_isSound rfl) ⟨_, rfl, trails_sign (by decide)⟩
      ⟨_, rfl, leads_gap _ _⟩

theorem spans (s : Signature) : Spans true s.atoms :=
  s.spans_named.prepend (sound_of_isSound rfl) ⟨_, rfl, rfl⟩ ⟨_, rfl, leads_gap _ _⟩

end Signature

theorem Modifiers.spans (m : Modifiers) (s : Signature) : Spans true (m.atoms ++ s.named) := by
  have star : Leads true (.sign .star) := by
    intro a opening
    cases a with
    | word w => rfl
    | _ => simp [opens] at opening
  obtain ⟨declared, async, star⟩ := m
  cases declared <;> cases async <;> rcases star with _ | ⟨_ | _, _ | _⟩ <;>
    exact s.spans_named.prepend (sound_of_isSound rfl) ⟨_, rfl, rfl⟩
      ⟨_, rfl, by first | exact leads_gap _ _ | exact star⟩

/-! ### The body -/

/-- The last lexeme lets no brace open a type. -/
def Ends (as : List Atom) : Prop :=
  ∃ front l, as.flatMap lexemes = front ++ [l] ∧ l.kind.isGap = false ∧ l.text ∉ typePositions

theorem Ends.prepend {bs : List Atom} (h : Ends bs) (as : List Atom) : Ends (as ++ bs) := by
  obtain ⟨front, l, split, known⟩ := h
  exact ⟨as.flatMap lexemes ++ front, l, by rw [List.flatMap_append, split, List.append_assoc], known⟩

theorem ends_word {w : Word} (ordinary : w.text ∉ typeOperators) : Ends [.word w] := by
  have known : ∀ t ∈ typePositions, t ∈ typeOperators ∨ ¬ t.head?.any isNameStart := by decide
  refine ⟨[], ⟨w.kind, w.text⟩, rfl, ?_, fun position => ?_⟩
  · simp only
    rcases w.kind_eq with kind | kind <;> rw [kind] <;> decide
  · rcases known _ position with operator | sign
    · exact ordinary operator
    · exact sign (by simp [Word.text, w.start])

theorem ends_literal (q : Quotation) : Ends [.literal q] := by
  have known : ∀ t ∈ typePositions, t.head? ≠ some '"' ∧ t.head? ≠ some '\'' := by decide
  refine ⟨[], ⟨q.kind, q.text⟩, rfl, ?_, fun position => ?_⟩
  · simp only [Quotation.kind]
    split <;> decide
  · have head : q.text.head? = some q.mark := rfl
    rcases q.quote with mark | mark
    · exact (known _ position).1 (mark ▸ head)
    · exact (known _ position).2 (mark ▸ head)

/-- **A type without operator words at its end lets no brace open another.** -/
theorem Phrase.Ordinary.ends {p : Char → Bool} {k : Category} {x : Phrase p k} (h : x.Ordinary) :
    Ends x.atoms := by
  have bracket {b : Bracket} (closes : [b.char] ∉ typePositions) : Ends [.bracket b] :=
    ⟨[], ⟨.bracket, [b.char]⟩, rfl, rfl, closes⟩
  have brace : Ends [.bracket .closeBrace] := bracket (by decide)
  have paren : Ends [.bracket .closeParen] := bracket (by decide)
  have square : Ends [.bracket .closeSquare] := bracket (by decide)
  have greater : Ends [.sign .greater] := ⟨[], ⟨.operator, ['>']⟩, rfl, rfl, by decide⟩
  induction x with
  | name n => exact ends_word h
  | literal q _ => exact ends_literal q
  | array t ih => exact (square.prepend [.bracket .openSquare]).prepend t.atoms
  | generic n arguments ih => exact greater.prepend _
  | tuple elements ih => exact square.prepend _
  | emptyObject => exact ⟨[⟨.bracket, ['{']⟩], ⟨.bracket, ['}']⟩, rfl, rfl, by decide⟩
  | object fields ih => exact (brace.prepend [.gap .space]).prepend _
  | function params result ih ih' => exact (ih' h.2).prepend _
  | thunk result ih => exact (ih h).prepend _
  | group t ih => exact paren.prepend _
  | joined c left right ih ih' => exact (ih' h.2).prepend _
  | keyof t ih => exact (ih h).prepend _
  | typeof n => exact (ends_word h).prepend [.word .typeofWord, .gap .space]
  | unnamed t ih => exact ih h
  | named n t ih => exact (ih h).prepend _
  | single x ih => exact ih h
  | cons x xs ih ih' => exact (ih' h.2).prepend _

/-- Between angle signs a header runs through a bound. -/
theorem Bound.passes (b : Bound) {h : Header} (deep : 0 < h.depth) :
    ∃ h', Passes h b.atoms h' ∧ h'.depth = h.depth := by
  obtain ⟨h₁, word, depth₁, -⟩ := passes_word b.name h
  obtain ⟨h₂, operator, depth₂, -⟩ := passes_word .extendsWord h₁
  obtain ⟨h₃, type, depth₃⟩ := passes_phrase b.type (h := h₂) (.inl (by omega))
  have name := (word.append (passes_gap .space h₁)).append operator
  exact ⟨h₃, (name.append (passes_gap .space h₂)).append type, by omega⟩

namespace Signature

theorem passes_list (b : Bound) (bs : List Bound) {h : Header} (deep : 0 < h.depth) :
    ∃ h', Passes h (list b bs) h' ∧ h'.depth = h.depth := by
  induction bs generalizing b h with
  | nil => exact b.passes deep
  | cons c cs ih =>
    obtain ⟨h₁, first, depth₁⟩ := b.passes deep
    obtain ⟨h₂, comma, depth₂, -⟩ := passes_sign (s := .comma) (h := h₁) (by simp)
    simp only [angleShift] at depth₂
    obtain ⟨h₃, later, depth₃⟩ := ih c (h := h₂) (by omega)
    exact ⟨h₃, (first.append (comma.append (passes_gap .space h₂))).append later, by omega⟩

theorem passes_generics (bounds : List Bound) {h : Header} (zero : h.depth = 0) :
    ∃ h', Passes h (generics bounds) h' ∧ h'.depth = 0 := by
  cases bounds with
  | nil => exact ⟨h, .refl h, zero⟩
  | cons b bs =>
    obtain ⟨h₁, less, depth₁, -⟩ := passes_sign (s := .less) (h := h) (by simp)
    obtain ⟨h', passes, depth⟩ := less.enclosed depth₁ (by omega) (passes_list b bs)
      passes_greater
    exact ⟨h', passes, depth.trans zero⟩

/-- **A header runs through a signature**: behind it the parameters are closed, and a brace is the
brace of the body. -/
theorem passes_named (s : Signature) {h : Header} (zero : h.depth = 0) :
    ∃ h', Passes h s.named h' ∧ h'.depth = 0 ∧ h'.paramsClosed = true ∧
      h'.previous ∉ typePositions := by
  obtain ⟨h₁, name, depth₁, -⟩ := passes_word s.name h
  obtain ⟨h₂, generics, depth₂⟩ := passes_generics s.bounds (h := h₁) (by omega)
  obtain ⟨h₃, opening, depth₃⟩ := passes_bracket .openParen h₂
  simp only [shift] at depth₃
  obtain ⟨h₄, params, depth₄⟩ := passes_params s.params (h := h₃) (by omega)
  obtain ⟨h₅, closing, depth₅⟩ := passes_bracket .closeParen h₄
  simp only [shift] at depth₅
  have zero₅ : h₅.depth = 0 := by omega
  have closed : h₅.paramsClosed = true := by
    have here : h₅ = h₄.advance ⟨0, .bracket, [')']⟩ := closing.reached
    have depth : (h₄.advance ⟨0, .bracket, [')']⟩).depth = 0 := here ▸ zero₅
    rw [here]
    simp only [Header.advance] at depth
    simp [Header.advance, depth, Token.is]
  have front := (((name.append generics).append opening).append params).append closing
  cases result : s.result with
  | none =>
    have previous : h₅.previous = [')'] := congrArg Header.previous closing.reached
    refine ⟨h₅, ?_, zero₅, closed, by rw [previous]; decide⟩
    rw [named, result, returns, List.append_nil]
    exact front
  | some t =>
    obtain ⟨h₆, colon, depth₆, previous⟩ := passes_sign (s := .colon) (h := h₅) (by simp)
    simp only [angleShift] at depth₆
    have ready : Ready h₆ := ready_of_previous (by omega) (by rw [previous]; decide)
    obtain ⟨h₇, type, depth₇⟩ := passes_phrase t ready
    obtain ⟨before, l, split, solid, plain⟩ := (s.ordinary t result).ends
    have last : h₇.previous = l.text := by
      rw [type.reached, split, previous_through h₆ before solid]
    refine ⟨h₇, ?_, by omega, ?_, last ▸ plain⟩
    · rw [named, result, returns]
      exact front.append ((colon.append (passes_gap .space h₆)).append type)
    · have open₆ : h₆.paramsClosed = true := by
        rw [colon.reached]
        exact paramsClosed_through closed _
      rw [type.reached]
      exact paramsClosed_through open₆ _

end Signature

/-- Behind atoms that a header runs through, with closed parameters and no type expected, the next
brace is the brace of the body. -/
theorem bodyBrace?_of_passes {as : List Atom} (spans : Spans true as) {h : Header}
    (passes : Passes .start as h) (zero : h.depth = 0) (closed : h.paramsClosed = true)
    (plain : h.previous ∉ typePositions) (body : Text) :
    bodyBrace? (spell as ++ [' ', '{'] ++ body) = some ((spell as).length + 1) := by
  have sound : Sound (as ++ [.gap .space]) :=
    spans.sound_append (.singleton _) ⟨_, rfl, trails_gap _⟩
  have meets : ∀ a ∈ (as ++ [gap .space]).getLast?, Meets a ('{' :: body) := by
    intro a last c head
    rw [List.getLast?_concat] at last
    obtain rfl := Option.some.inj last
    exact ⟨.brace none, rfl, (Option.some.inj head).symm⟩
  have clear : Clear ('{' :: body) := (clear_of_solid (by decide) (by decide)).2 (by decide)
  obtain ⟨last, read⟩ := lex_spell_append clear sound meets
  obtain ⟨ls, brace⟩ := Lexer.exists_lex_brace last body
  have lexed : Lexer.lex .code none (spell as ++ [' ', '{'] ++ body) =
      (as ++ [gap .space]).flatMap lexemes ++ ⟨.bracket, ['{']⟩ :: ls := by
    rw [← brace, ← read, spell_append, List.append_assoc, List.append_assoc]
    rfl
  have length : (Lexeme.spell ((as ++ [gap .space]).flatMap lexemes)).length =
      (spell as).length + 1 := by
    rw [← spell_eq, spell_append, List.length_append]
    rfl
  rw [bodyBrace?, tokens, lexed, Lexeme.place_append, length, Nat.zero_add,
    (passes.append (passes_gap .space h)).run, Lexeme.place, bodyFrom]
  have opens : h.bodyOpensAt ⟨(spell as).length + 1, .bracket, ['{']⟩ = true := by
    simp [Header.bodyOpensAt, Token.is, zero, closed, plain]
  rw [opens]
  rfl

/-- A header that runs through the atoms before a signature finds the body behind it. -/
theorem Signature.bodyBrace?_named (s : Signature) {as : List Atom} {h : Header}
    (spans : Spans true (as ++ s.named)) (passes : Passes .start as h) (zero : h.depth = 0)
    (body : Text) :
    bodyBrace? (spell (as ++ s.named) ++ [' ', '{'] ++ body) =
      some ((spell (as ++ s.named)).length + 1) := by
  obtain ⟨h', named, zero', closed, plain⟩ := s.passes_named zero
  exact bodyBrace?_of_passes spans (passes.append named) zero' closed plain body

/-- A signature with a semicolon behind it has no body. -/
theorem Signature.bodyBrace?_ended (s : Signature) : bodyBrace? (spell s.atoms ++ [';']) = none := by
  obtain ⟨h₁, word, depth₁, -⟩ := passes_word .functionWord .start
  obtain ⟨h₂, named, -⟩ := s.passes_named (h := h₁) depth₁
  obtain ⟨h₃, semicolon, -⟩ := passes_sign (s := .semicolon) (h := h₂) (by simp)
  have sound : Sound (s.atoms ++ [.sign .semicolon]) :=
    s.spans.sound_append (.singleton _) ⟨_, rfl, trails_sign (by decide)⟩
  have passes := (((word.append (passes_gap .space h₁)).append named).append semicolon).run 0 []
  rw [List.append_nil] at passes
  rw [show spell s.atoms ++ [';'] = spell (s.atoms ++ [.sign .semicolon]) by simp [Sign.text],
    bodyBrace?, tokens_spell sound]
  exact passes

/-! ### The ambient form -/

/-- Atoms that nest nothing wherever they stand. -/
def isLevel : Atom → Bool
  | .word _ | .gap _ | .sign .star => true
  | _ => false

theorem passes_level {as : List Atom} (level : as.all isLevel = true) (h : Header) :
    ∃ h', Passes h as h' ∧ h'.depth = h.depth := by
  induction as generalizing h with
  | nil => exact ⟨h, .refl h, rfl⟩
  | cons a as ih =>
    obtain ⟨here, later⟩ := Bool.and_eq_true_iff.1 (List.all_cons.symm.trans level)
    obtain ⟨h₁, first, depth₁⟩ : ∃ h', Passes h [a] h' ∧ h'.depth = h.depth := by
      cases a with
      | word w =>
        obtain ⟨h₁, word, depth₁, -⟩ := passes_word w h
        exact ⟨h₁, word, depth₁⟩
      | gap g => exact ⟨h, passes_gap g h, rfl⟩
      | sign s =>
        cases s with
        | star =>
          obtain ⟨h₁, sign, depth₁, -⟩ := passes_sign (s := .star) (h := h) (by simp)
          exact ⟨h₁, sign, by simpa [angleShift] using depth₁⟩
        | _ => cases here
      | _ => cases here
    obtain ⟨h₂, rest, depth₂⟩ := ih later h₁
    exact ⟨h₂, first.append rest, depth₂.trans depth₁⟩

/-- Without its body a function is cut to what stands before the brace. -/
theorem signature_of_body {as : List Atom} (spans : Spans true as) (body : Text)
    (brace : ∀ body, bodyBrace? (spell as ++ [' ', '{'] ++ body) = some ((spell as).length + 1)) :
    Function.signature (trim (spell as ++ [' ', '{'] ++ body)) = spell as := by
  obtain ⟨a, head, opening⟩ := spans.head
  obtain ⟨c, last, final⟩ := spans.last_char
  have first : (spell as).head? = some a.first := by
    obtain ⟨rest, rfl⟩ := List.head?_eq_some_iff.1 head
    exact spell_head a rest
  have solid : isBlank a.first = false := a.first_class.2.1.trans (isGap_of_opens opening)
  have trimmed : trim (spell as ++ [' ', '{'] ++ body) =
      spell as ++ [' ', '{'] ++ trimRight body := by
    rw [trim, trimLeft_of_head (c := a.first) (by simp [first]) solid]
    exact trimRight_append_of_getLast (c := '{') (by simp) (by decide) body
  have cut : (spell as ++ [' ', '{'] ++ trimRight body).take ((spell as).length + 1) =
      spell as ++ [' '] := by
    rw [List.append_assoc, List.take_length_add_append]
    rfl
  have ends : trim (spell as ++ [' ']) = spell as := by
    rw [trim_append_blank (by decide)]
    exact trim_of_ends first last solid (isBlank_of_isFinal final)
  rw [trimmed, Function.signature, brace, Option.getD_some, cut, ends, Canonical.trimRight_unended spans]

/-- Modifiers and the star of a generator are left out. -/
theorem withoutStar_modifiers (m : Modifiers) (s : Signature) :
    Function.withoutStar (Function.withoutModifiers (spell (m.atoms ++ s.named))) =
      spell s.atoms := by
  have unmodified : Function.withoutModifiers (spell (m.atoms ++ s.named)) =
      "function".toList ++ (spell m.between ++ spell s.named) := by
    obtain ⟨declared, async, star⟩ := m
    cases declared <;> cases async <;> rcases star with _ | ⟨_ | _, _ | _⟩ <;> rfl
  obtain ⟨rest, named⟩ : ∃ rest, spell s.named = s.name.text ++ rest := by
    exact ⟨_, by simp [Signature.named]; rfl⟩
  have solid : trimLeft (spell s.named) = spell s.named := by
    rw [named]
    exact trimLeft_of_head (c := s.name.first) rfl (isBlank_of_isNameStart s.name.start)
  have written : spell s.atoms = "function ".toList ++ spell s.named := rfl
  rw [unmodified, Function.withoutStar, Lexer.after?_append, Option.bind_some, written]
  obtain ⟨declared, async, star⟩ := m
  cases star with
  | none =>
    have unstarred : after? ['*'] (trimLeft (' ' :: spell s.named)) = none := by
      rw [named]
      exact Canonical.after?_of_word (by decide) s.name rest
    rw [show spell (Modifiers.between ⟨declared, async, none⟩) ++ spell s.named =
      ' ' :: spell s.named from rfl, unstarred]
    rfl
  | some blanks =>
    obtain ⟨before, after⟩ := blanks
    have starred : after? ['*'] (trimLeft
        (spell (Modifiers.between ⟨declared, async, some (before, after)⟩) ++ spell s.named)) =
          some (spell (Modifiers.blank after) ++ spell s.named) := by
      cases before <;> rfl
    have skipped : trimLeft (spell (Modifiers.blank after) ++ spell s.named) = spell s.named := by
      cases after with
      | false => exact solid
      | true => exact (trimLeft_space _).trans solid
    simp only [starred, skipped]

/-- **A function is reduced to its signature.** The brace behind a signature is the brace of the
body, a signature with a semicolon has none, and what is declared is the signature alone, without
`async` and without the star of a generator, whatever the body. -/
theorem signature_kept (s : Signature) (body : Text) :
    bodyBrace? (spell s.atoms ++ [' ', '{'] ++ body) = some ((spell s.atoms).length + 1) ∧
      bodyBrace? (spell s.atoms ++ [';']) = none ∧
      ∀ m : Modifiers, Function.ambient (spell (m.atoms ++ s.named) ++ [' ', '{'] ++ body) =
        "export declare ".toList ++ spell s.atoms ++ [';'] := by
  refine ⟨?_, s.bodyBrace?_ended, fun m => ?_⟩
  · have level : [Atom.word .functionWord, .gap .space].all isLevel = true := rfl
    obtain ⟨h, words, zero⟩ := passes_level level .start
    have spans : Spans true ([.word .functionWord, .gap .space] ++ s.named) := s.spans
    have brace := s.bodyBrace?_named spans words zero body
    rwa [← Signature.atoms] at brace
  · have level : m.atoms.all isLevel = true := by
      obtain ⟨declared, async, star⟩ := m
      cases declared <;> cases async <;> rcases star with _ | ⟨_ | _, _ | _⟩ <;> rfl
    obtain ⟨h, words, zero⟩ := passes_level level .start
    have brace := s.bodyBrace?_named (m.spans s) words zero
    have cut := signature_of_body (m.spans s) body brace
    have kept := withoutStar_modifiers m s
    rw [← cut] at kept
    exact congrArg (fun t => "export declare ".toList ++ t ++ [';']) kept

end Ambient
