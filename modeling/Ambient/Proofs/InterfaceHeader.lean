import Ambient.Proofs.Balance
import Ambient.Proofs.Composition
import Ambient.Proofs.GatheredText

/-!
Interfaces whose header is broken into lines. The lines of an interface are gathered until their
brackets balance, and angle signs are no brackets there: a header that is broken inside a bracket is
gathered with all its members, and one that is broken elsewhere is the whole interface, which ends
before its own brace.
-/

namespace Ambient

/-! ### The interface -/

/-- An interface with its header broken into lines: each break stands for one space behind the name. -/
structure BrokenInterface where
  name : Word
  /-- The type parameters and what the interface extends. -/
  clauses : Text
  /-- What the opening line holds from the name on. -/
  first : Text
  /-- The later lines of the header, each behind its indentation. -/
  more : List (Text × Text)
  members : List Text
  last : Text
  named : name.text <+: first
  broken : [' '].intercalate (first :: more.map Prod.snd) = name.text ++ clauses ++ " \x7b".toList
  indented : ∀ p ∈ more, ∀ c ∈ p.1, isSpace c = true
  ended : '\n' ∉ last ∧ trim last = ['}']

namespace BrokenInterface

def opening (i : BrokenInterface) : Text := "export interface ".toList ++ i.first

def header (i : BrokenInterface) : List Text := i.opening :: i.more.map fun p => p.1 ++ p.2

def lines (i : BrokenInterface) : List Text := i.header ++ (i.members ++ [i.last])

def source (i : BrokenInterface) : Text := joinLines i.lines

/-- The brackets that are open behind the first lines of the header. -/
def depthAfter (i : BrokenInterface) (n : Nat) : Int := ((i.header.take n).map bracketBalance).sum

/-- Each line ends the literals and comments that it starts, the header opens one brace, each member
closes the brackets that it opens, and no line is a default export. -/
structure Sound (i : BrokenInterface) : Prop where
  closed : ∀ l ∈ i.header ++ i.members, Closed l
  opens : i.depthAfter i.header.length = 1
  paired : ∀ m ∈ i.members, bracketBalance m = 0
  quiet : ∀ l ∈ i.header ++ i.members, LineKind.classify (trim l) ≠ .defaultExport

/-- Every break of the header stands inside a bracket that the header has opened. -/
def BreaksInside (i : BrokenInterface) : Prop :=
  ∀ n < i.header.length, 0 < n → i.depthAfter n ≠ 0

instance (i : BrokenInterface) : Decidable i.BreaksInside :=
  inferInstanceAs (Decidable (∀ n < i.header.length, _))

end BrokenInterface

namespace Interface

theorem memberLine_holds (unit : Text) (level : Nat) (member : Text) :
    member <:+: memberLine unit level member := by
  rw [memberLine]
  split
  · exact ⟨indentation unit level ++ [' '], [], by simp⟩
  · exact ⟨indentation unit level, [], by simp⟩

/-- All lines between the first one and the closing brace are members. -/
theorem members_of_several (first : Text) (mid : List Text) {last : Text}
    (brace : startsWith ['}'] (trim last) = true) :
    ∃ inline, (parts (first :: (mid ++ [last]))).2 = inline ++ mid := by
  have inside : interior (first :: (mid ++ [last])) = mid := by simp [interior, brace]
  have several : (first :: (mid ++ [last])).length ≠ 1 := by simp
  rw [parts]
  simp only [inside, several, ↓reduceIte]
  split
  · exact ⟨[], rfl⟩
  · exact ⟨_, rfl⟩

/-- The members of an interface are written in order. -/
theorem ambient_holds (unit : Text) {t first last : Text} {mid : List Text}
    (spelled : Ambient.lines (trim t) = first :: (mid ++ [last]))
    (brace : startsWith ['}'] (trim last) = true) : HoldsInOrder (mid.map trim) (ambient unit t) := by
  obtain ⟨inline, members⟩ := members_of_several first mid brace
  have leveled : (Nesting.levels 1 (inline ++ mid)).map (·.2) =
      ((inline ++ mid).map trim).filter (· != []) := levelsFrom_snd _ _ _ _
  have solid : List.Sublist ((mid.map trim).filter (· != []))
      ((Nesting.levels 1 (inline ++ mid)).map (·.2)) := by
    rw [leveled, List.map_append, List.filter_append]
    exact List.sublist_append_right _ _
  have body := HoldsInOrder.of_lines fun p (_ : p ∈ Nesting.levels 1 (inline ++ mid)) =>
    memberLine_holds unit p.1 p.2
  rw [ambient_eq, spelled, members, List.append_assoc]
  exact .of_solid (((body.of_sublist solid).before _).behind _)

end Interface

namespace BrokenInterface

variable {i : BrokenInterface}

theorem trim_opening (i : BrokenInterface) :
    trim i.opening = "export interface ".toList ++ trimRight i.first := by
  obtain ⟨r, first⟩ := i.named
  have solid : trimRight i.first ≠ [] :=
    trimRight_ne_nil (c := i.name.first) (first ▸ List.mem_cons_self)
      (isBlank_of_isNameStart i.name.start)
  have left : trimLeft i.opening = i.opening := rfl
  rw [trim, left]
  exact trimRight_append_of_ne_nil _ solid

/-- The opening line shows an interface. -/
theorem gathersAt_opening (i : BrokenInterface) (keep : Bool) (style : Style) :
    Scan.gathersAt ⟨true, keep, style⟩ (trim i.opening) = some (.declaration .interface) := by
  rw [trim_opening]
  rfl

theorem bracketBalance_last (i : BrokenInterface) : Closed i.last ∧ bracketBalance i.last = -1 := by
  obtain ⟨free, brace⟩ := i.ended
  have written : Written i.last := written_of_trim (brace ▸ .of_bracket (by decide))
  refine ⟨closed_of_written free written, ?_⟩
  rw [← bracketBalance_trim, brace]
  decide +kernel

theorem header_eq (i : BrokenInterface) : ∃ tail, i.header = i.opening :: tail := ⟨_, rfl⟩

/-- The brackets of the first lines, as they are counted while they are gathered. -/
theorem bracketBalance_front (sound : i.Sound) {front : List Text}
    (isPrefix : front <+: i.header ++ i.members) :
    bracketBalance (Scan.gatheredText front) = (front.map bracketBalance).sum :=
  Scan.bracketBalance_gatheredText fun l member => sound.closed l (isPrefix.subset member)

/-- Where every break stands inside a bracket, a bracket is open up to the last line. -/
theorem open_before_last (sound : i.Sound) (inside : i.BreaksInside) {front : List Text}
    (isPrefix : front <+: i.header ++ i.members) (some : front ≠ []) :
    bracketBalance (Scan.gatheredText front) ≠ 0 := by
  rw [bracketBalance_front sound isPrefix]
  obtain ⟨rest, whole⟩ := isPrefix
  rcases List.append_eq_append_iff.1 whole with ⟨more, split, -⟩ | ⟨ms, rfl, members⟩
  · cases more with
    | nil =>
      have opens := sound.opens
      rw [depthAfter, List.take_length, split, List.append_nil] at opens
      omega
    | cons l more =>
      have depth := inside front.length (by rw [split]; simp) (List.length_pos_iff.2 some)
      rwa [depthAfter, split, List.take_left' rfl] at depth
  · have opens := sound.opens
    have paired : (ms.map bracketBalance).sum = 0 :=
      sum_of_paired fun m inside => sound.paired m (members ▸ List.mem_append_left rest inside)
    rw [depthAfter, List.take_length] at opens
    rw [List.map_append, List.sum_append, opens, paired]
    omega

theorem balanced (sound : i.Sound) : bracketBalance (Scan.gatheredText i.lines) = 0 := by
  obtain ⟨closed, closes⟩ := i.bracketBalance_last
  have all : ∀ l ∈ i.lines, Closed l := by
    intro l member
    rw [lines, ← List.append_assoc] at member
    rcases List.mem_append.1 member with front | last
    · exact sound.closed l front
    · exact List.mem_singleton.1 last ▸ closed
  have paired := sum_of_paired sound.paired
  have opens := sound.opens
  rw [depthAfter, List.take_length] at opens
  rw [Scan.bracketBalance_gatheredText all, lines, List.map_append, List.map_append, List.sum_append,
    List.sum_append, opens, paired, List.map_singleton, List.sum_singleton, closes]
  rfl

theorem feedless (sound : i.Sound) : ∀ l ∈ i.lines, '\n' ∉ l := by
  intro l member
  rw [lines, ← List.append_assoc] at member
  rcases List.mem_append.1 member with front | last
  · exact (sound.closed l front).1
  · exact List.mem_singleton.1 last ▸ i.ended.1

theorem lines_source (sound : i.Sound) : Ambient.lines i.source = i.lines :=
  pieces_joinPieces (by simp [lines, header]) (feedless sound)

/-- **All lines are gathered where every break stands inside a bracket.** -/
theorem takes_lines (sound : i.Sound) (inside : i.BreaksInside) (keep : Bool) (style : Style) :
    Scan.Takes ⟨true, keep, style⟩ i.lines .interface (Scan.gatheredText i.lines) := by
  obtain ⟨tail, header⟩ := i.header_eq
  have whole : i.lines = i.opening :: (tail ++ i.members) ++ [i.last] := by simp [lines, header]
  have front {ts : List Text} (isPrefix : ts <+: tail ++ i.members) :
      i.opening :: ts <+: i.header ++ i.members := by
    rw [header, List.cons_append]
    exact (List.prefix_cons_inj i.opening).2 isPrefix
  have quiet : ∀ t ∈ tail ++ i.members ++ [i.last], LineKind.classify (trim t) ≠ .defaultExport := by
    intro t member
    rcases List.mem_append.1 member with inner | last
    · refine sound.quiet t ?_
      rw [header]
      exact List.mem_cons_of_mem _ inner
    · rw [List.mem_singleton.1 last, i.ended.2]
      decide
  have balanced := balanced sound
  rw [whole] at balanced ⊢
  exact Scan.takes_lines (i.gathersAt_opening keep style) (by decide)
    (fun t _ => Scan.diverts_of_not_constant (by decide) (trim t)) quiet
    (fun ts isPrefix => open_before_last sound inside (front isPrefix) (List.cons_ne_nil _ _)) balanced

end BrokenInterface

namespace Scan

end Scan

end Ambient
