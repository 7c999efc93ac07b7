import Ambient.Proofs.Discovery

/-!
One unreadable source never matters to the others. Of any list of sources each is written to its
target or recorded, unless one is met that can be read but has no target. Where the list was
discovered there is none, and no output goes to the place of a source: what is written for a source
depends on its own text only (`sources_isolated`). A list from elsewhere may hold what the build itself
writes (`listed_output_read`).
-/

namespace Ambient.Build

open FileTree Run

variable {settings : Settings} {s : State}

/-- The stage writes the outputs `os` and records the sources `ps`. -/
structure Completes (settings : Settings) (s : State) (session : Session)
    (os : List (Path × ByteArray)) (ps : List Path) (next : Session) : Prop where
  ended : (generate settings s).outcome session =
    (.ok { s with report := some ⟨os.map Prod.fst, ps⟩ }, next)
  taken : Generated settings s session.tree s.sources os ps next.tree
  once : os.length + ps.length = s.sources.length
  status : Report.status ⟨os.map Prod.fst, ps⟩ = true ↔ ps = []
  verdict : ∀ last, ((report { s with report := some ⟨os.map Prod.fst, ps⟩ }).outcome last).1 =
    if ps = [] then .ok { s with report := some ⟨os.map Prod.fst, ps⟩ } else .error (.exit 1)
  /-- An output is there in the end, unless a later one goes to its place. -/
  held : ∀ front o back, os = front ++ o :: back →
    (∀ o' ∈ back, session.tree.place o'.1 ≠ session.tree.place o.1) → next.tree.read o.1 = .ok o.2

theorem Generated.exists_completes (session : Session) {os : List (Path × ByteArray)} {ps : List Path} {after : FileTree}
    (taken : Generated settings s session.tree s.sources os ps after) :
    ∃ next, Completes settings s session os ps next := by
  obtain ⟨next, ended, rfl⟩ := taken.generate session rfl
  have reported : State.report { s with report := some ⟨os.map Prod.fst, ps⟩ } =
      some ⟨os.map Prod.fst, ps⟩ := rfl
  refine ⟨next, ended, taken, taken.length_add, List.isEmpty_iff, report_result reported, ?_⟩
  rintro front o back rfl last
  exact read_of_storeAll_of_place taken.storeAll last

/-! ### A broken source -/

/-- A folder with a source and a file that is not UTF-8. -/
def brokenTree : FileTree where
  entries := [(["in".toList], .folder),
    (["in".toList, "a.ts".toList], .file (encode "export const a = 1;".toList)),
    (["in".toList, "b.ts".toList], .file ⟨#[0xff]⟩)]
  workFolder := []

def brokenState : State :=
  { State.start (.ofText "in".toList) (.ofText "out".toList) with
    targetFolder := .ofText "out".toList
    sources := [.ofText "in/a.ts".toList, .ofText "in/b.ts".toList] }

theorem sound_brokenTree : brokenTree.Sound where
  once := by decide
  held := by
    intro x member
    simp only [brokenTree, List.mem_cons, List.not_mem_nil, or_false] at member
    rcases member with rfl | rfl | rfl <;> exact ⟨by simp, rfl⟩
  named := by decide

theorem named_brokenTree : brokenTree.Named := by
  unfold FileTree.Named
  decide

theorem broken_discovered : discover brokenTree Settings.default.outputSuffix
    brokenState.inputFolder [['*']] = .ok brokenState.sources := by
  have globbed : [['*']].mapM (glob brokenTree brokenState.inputFolder) =
      .ok [brokenState.sources] := by decide +kernel
  have anchored : ∀ p ∈ brokenState.sources, p.anchor = [] := by decide
  have ascends : brokenState.sources.Pairwise Path.Before :=
    List.pairwise_pair.2 (by unfold Path.Before; decide)
  exact discover_of_ascending globbed (by decide) anchored ascends

theorem output_broken : output? .default brokenState brokenTree (.ofText "in/a.ts".toList) =
    some (.ofText "out/a.d.ts".toList, encode "export declare const a: number;\n".toList) := by
  decide +kernel

theorem unread_broken : brokenTree.text? (.ofText "in/b.ts".toList) = none := by
  decide +kernel

theorem broken_generated : ∃ after, Generated .default brokenState brokenTree brokenState.sources
    [(.ofText "out/a.d.ts".toList, encode "export declare const a: number;\n".toList)]
    [.ofText "in/b.ts".toList] after := by
  have stores (bytes : ByteArray) : ∃ after,
      brokenTree.store (.ofText "out/a.d.ts".toList) bytes = .ok after := ⟨_, rfl⟩
  obtain ⟨after, stored⟩ := stores (encode "export declare const a: number;\n".toList)
  have separable := separable_of_discovered sound_brokenTree named_brokenTree (by decide)
    broken_discovered
  have later : after.text? (.ofText "in/b.ts".toList) = none :=
    (separable.text?_after sound_brokenTree output_broken stored _ (by simp)).trans unread_broken
  exact ⟨after, .written output_broken stored (.failed later (.done after))⟩

/-! ### Results -/

/-- **One unreadable source never affects the others.** Unless a folder or a file cannot be made, the
sources are taken in turn, each is written to its target or recorded, and the build fails exactly if
some are recorded; only a source that can be read but has no target ends the stage. Where no output
goes to the place of a later source, those recorded are the ones that cannot be read, and what is
written for any other depends on its own text only. Sources that were discovered all have a target,
and no output goes to the place of one. -/
theorem sources_isolated (settings : Settings) (s : State) (session : Session)
    (sound : session.tree.Sound)
    (unhindered : ∀ e, ((generate settings s).outcome session).1 ≠ .error (.fault (.file e))) :
    ((∃ e, Refused settings s session.tree s.sources e ∧
        ((generate settings s).outcome session).1 = .error (.fault (.name e))) ∨
      ∃ os ps next, Completes settings s session os ps next ∧
        (Separable settings s session.tree s.sources →
          os = outputs settings s session.tree s.sources ∧ ps = unread session.tree s.sources)) ∧
    ∀ patterns, session.tree.Named → '/' ∉ settings.outputSuffix →
      discover session.tree settings.outputSuffix s.inputFolder patterns = .ok s.sources →
      ∃ next, Completes settings s session (outputs settings s session.tree s.sources)
        (unread session.tree s.sources) next := by
  refine ⟨?_, fun patterns named slashless discovered => ?_⟩
  · rcases generate_cases settings s session.tree with
      ⟨os, ps, after, taken⟩ | ⟨e, refused⟩ | ⟨e, halts⟩
    · obtain ⟨next, completes⟩ := taken.exists_completes session
      exact .inr ⟨os, ps, next, completes, taken.separable sound⟩
    · exact .inl ⟨e, refused, refused.generate session rfl⟩
    · exact absurd (halts session rfl) (unhindered e)
  · have targets := exists_target sound named slashless discovered
    rcases generate_cases_of_targets targets session.tree with ⟨os, ps, after, taken⟩ | ⟨e, halts⟩
    · have separable := separable_of_discovered sound named slashless discovered
      obtain ⟨rfl, rfl⟩ := taken.separable sound separable
      exact taken.exists_completes session
    · exact absurd (halts session rfl) (unhindered e)

theorem broken_source_isolated :
    ∃ made next, (generate .default brokenState).outcome ⟨brokenTree, [], []⟩ =
        (.ok { brokenState with report := some made }, next) ∧
      made.written = [.ofText "out/a.d.ts".toList] ∧ made.failed = [.ofText "in/b.ts".toList] ∧
      next.tree.read (.ofText "out/a.d.ts".toList) =
        .ok (encode "export declare const a: number;\n".toList) := by
  obtain ⟨after, taken⟩ := broken_generated
  obtain ⟨-, isolated⟩ := sources_isolated .default brokenState ⟨brokenTree, [], []⟩ sound_brokenTree
    (Generated.unhindered ⟨brokenTree, [], []⟩ taken)
  obtain ⟨next, completes⟩ := isolated [['*']] named_brokenTree (by decide) broken_discovered
  have known : outputs .default brokenState brokenTree brokenState.sources =
      [(.ofText "out/a.d.ts".toList, encode "export declare const a: number;\n".toList)] := by
    have rest : outputs .default brokenState brokenTree [.ofText "in/b.ts".toList] = [] :=
      List.filterMap_cons_none (output?_of_unread unread_broken)
    exact (List.filterMap_cons_some output_broken).trans (congrArg _ rest)
  have recorded : unread brokenTree brokenState.sources = [.ofText "in/b.ts".toList] := by
    decide +kernel
  exact ⟨_, next, completes.ended, congrArg (List.map Prod.fst) known, recorded,
    completes.held [] _ [] known nofun⟩

/-! ### Listed sources -/

/-- A source, a file at the place of its output, and a file outside their folder. -/
def listedTree : FileTree where
  entries := [(["in".toList], .folder),
    (["in".toList, "a.ts".toList], .file (encode "export const a = 1;".toList)),
    (["in".toList, "a.d.ts".toList], .file (encode "export const b = 2;".toList)),
    (["b.ts".toList], .file (encode "export const b = 2;".toList))]
  workFolder := []

/-- A build that writes beside the sources it is given. -/
def listedState (sources : List Path) : State :=
  { State.start (.ofText "in".toList) (.ofText "in".toList) with
    targetFolder := .ofText "in".toList
    sources := sources }

/-- A listed source is replaced by the output of an earlier one before it is read. -/
theorem listed_generated : ∃ after, Generated .default
    (listedState [.ofText "in/a.ts".toList, .ofText "in/a.d.ts".toList]) listedTree
    [.ofText "in/a.ts".toList, .ofText "in/a.d.ts".toList]
    [(.ofText "in/a.d.ts".toList, encode "export declare const a: number;\n".toList),
      (.ofText "in/a.d.d.ts".toList, encode "export declare const a: number;\n".toList)] [] after := by
  have stores (bytes bytes' : ByteArray) : ∃ between after,
      listedTree.store (.ofText "in/a.d.ts".toList) bytes = .ok between ∧
        between.store (.ofText "in/a.d.d.ts".toList) bytes' = .ok after := ⟨_, _, rfl, rfl⟩
  obtain ⟨between, after, stored, stored'⟩ := stores
    (encode "export declare const a: number;\n".toList)
    (encode "export declare const a: number;\n".toList)
  have decoded : decode? (encode "export declare const a: number;\n".toList) =
      some "export declare const a: number;\n".toList := by decide +kernel
  have replaced := text?_eq_some_iff.2 ⟨_, read_store stored, decoded⟩
  have first : output? .default (listedState [.ofText "in/a.ts".toList, .ofText "in/a.d.ts".toList])
      listedTree (.ofText "in/a.ts".toList) =
        some (.ofText "in/a.d.ts".toList, encode "export declare const a: number;\n".toList) := by
    decide +kernel
  have second : output? .default (listedState [.ofText "in/a.ts".toList, .ofText "in/a.d.ts".toList])
      between (.ofText "in/a.d.ts".toList) =
        some (.ofText "in/a.d.d.ts".toList, encode "export declare const a: number;
".toList) :=
    output?_eq_some_iff.2 ⟨_, _, replaced, rfl, by decide +kernel⟩
  exact ⟨after, .written first stored (.written second stored' (.done after))⟩

/-- **Sources that were not discovered are not isolated.** One that is at the place of an earlier
output is not written by its own text, and one outside the input folder ends the stage, as any source
does where the suffix makes no name. -/
theorem listed_output_read :
    (∃ next, (generate .default
          (listedState [.ofText "in/a.ts".toList, .ofText "in/a.d.ts".toList])).outcome
            ⟨listedTree, [], []⟩ =
        (.ok { listedState [.ofText "in/a.ts".toList, .ofText "in/a.d.ts".toList] with
          report := some ⟨[.ofText "in/a.d.ts".toList, .ofText "in/a.d.d.ts".toList], []⟩ }, next) ∧
      listedTree.text? (.ofText "in/a.d.ts".toList) = some "export const b = 2;".toList ∧
      next.tree.read (.ofText "in/a.d.d.ts".toList) ≠ .ok (encode (fileText (declarationText
        (scanOptions .default (listedState [])) "export const b = 2;".toList).value))) ∧
    ((generate .default (listedState [.ofText "b.ts".toList])).outcome ⟨listedTree, [], []⟩).1 =
      .error (.fault (.name (.notBelow (.ofText "b.ts".toList) (.ofText "in".toList)))) ∧
    ((generate { Settings.default with outputSuffix := "/d.ts".toList }
        (listedState [.ofText "in/a.ts".toList])).outcome ⟨listedTree, [], []⟩).1 =
      .error (.fault (.name (.invalidName "a/d.ts".toList))) := by
  refine ⟨?_, ?_, ?_⟩
  · obtain ⟨after, taken⟩ := listed_generated
    obtain ⟨next, completes⟩ := taken.exists_completes ⟨listedTree, [], []⟩
    refine ⟨next, completes.ended, by decide +kernel, fun own => ?_⟩
    rw [completes.held [_] _ [] rfl nofun] at own
    exact absurd (Except.ok.inj own) (by decide +kernel)
  · have text : listedTree.text? (.ofText "b.ts".toList) = some "export const b = 2;".toList := by
      decide +kernel
    exact Refused.generate (s := listedState [.ofText "b.ts".toList]) (.here text rfl) _ rfl
  · have text : listedTree.text? (.ofText "in/a.ts".toList) = some "export const a = 1;".toList := by
      decide +kernel
    exact Refused.generate (s := listedState [.ofText "in/a.ts".toList]) (.here text rfl) _ rfl

end Ambient.Build
