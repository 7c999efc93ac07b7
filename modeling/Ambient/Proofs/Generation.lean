import Ambient.Build
import Ambient.Proofs.Place
import Mathlib.Data.List.Basic

/-!
The generating stage. It takes the sources in turn (`Generated`), and ends early only with a fault
of the files, or at a source that it can read but has no target for (`Refused`, `generate_cases`).
Where no output goes to the place of a source, what it writes is known before it starts
(`Generated.separable`).
-/

namespace Ambient

/-! ### Storing files -/

namespace FileTree

variable {t t' : FileTree} {p : Path} {bytes : ByteArray}

/-- Writes a file, with the folders above it. -/
def store (t : FileTree) (p : Path) (bytes : ByteArray) : Except FileError FileTree :=
  (t.makeFolders p.parent).bind fun made => made.write p bytes

/-- Writes files in order; ends with the first that cannot be written. -/
def storeAll (t : FileTree) : List (Path × ByteArray) → Except FileError FileTree
  | [] => .ok t
  | o :: rest => (t.store o.1 o.2).bind fun stored => stored.storeAll rest

theorem store_ok (h : t.store p bytes = .ok t') :
    ∃ made, t.makeFolders p.parent = .ok made ∧ made.write p bytes = .ok t' := by
  rw [store] at h
  cases folders : t.makeFolders p.parent with
  | error e =>
    rw [folders] at h
    cases h
  | ok made =>
    rw [folders] at h
    exact ⟨made, rfl, h⟩

theorem store_error {e : FileError} (h : t.store p bytes = .error e) :
    t.makeFolders p.parent = .error e ∨
      ∃ made, t.makeFolders p.parent = .ok made ∧ made.write p bytes = .error e := by
  rw [store] at h
  cases folders : t.makeFolders p.parent with
  | error e' =>
    rw [folders] at h
    exact .inl (congrArg Except.error (Except.error.inj h))
  | ok made =>
    rw [folders] at h
    exact .inr ⟨made, rfl, h⟩

theorem storeAll_cons_ok {o : Path × ByteArray} {rest : List (Path × ByteArray)}
    (h : t.storeAll (o :: rest) = .ok t') :
    ∃ stored, t.store o.1 o.2 = .ok stored ∧ stored.storeAll rest = .ok t' := by
  rw [storeAll] at h
  cases first : t.store o.1 o.2 with
  | error e =>
    rw [first] at h
    cases h
  | ok stored =>
    rw [first] at h
    exact ⟨stored, rfl, h⟩

theorem store_extends (h : t.store p bytes = .ok t') : Extends (t.Lands p) t t' := by
  obtain ⟨made, folders, written⟩ := store_ok h
  have grown : Extends (t.Lands p) t made := makeFolders_extends folders
  exact grown.trans (grown.lands_eq p ▸ write_extends written)

theorem storeAll_extends {os : List (Path × ByteArray)} {places : Location → Prop}
    (h : t.storeAll os = .ok t') (inside : ∀ o ∈ os, ∀ l, t.Lands o.1 l → places l) :
    Extends places t t' := by
  induction os generalizing t with
  | nil =>
    cases h
    exact .refl _
  | cons o rest ih =>
    obtain ⟨stored, first, later⟩ := storeAll_cons_ok h
    have grown := store_extends first
    refine (grown.mono (inside o List.mem_cons_self)).trans (ih later fun o' member => ?_)
    rw [grown.lands_eq]
    exact inside o' (List.mem_cons_of_mem o member)

theorem read_store (h : t.store p bytes = .ok t') : t'.read p = .ok bytes := by
  obtain ⟨made, -, written⟩ := store_ok h
  exact read_write written

/-- A file that is stored goes to the place of its path. -/
theorem lands_of_store (h : t.store p bytes = .ok t') : t.Lands p (t.place p) := by
  obtain ⟨made, folders, written⟩ := store_ok h
  obtain ⟨l, name, last, -, -⟩ := write_ok written
  have lands := lands_of_locateLast last
  have grown : Extends (t.Lands p) t made := makeFolders_extends folders
  rw [grown.lands_eq] at lands
  exact lands.place ▸ lands

/-- A file that is read stays, unless a later one goes to its place. -/
theorem read_storeAll {os : List (Path × ByteArray)} (h : t.storeAll os = .ok t')
    (held : t.read p = .ok bytes) (apart : ∀ o ∈ os, ¬ t.Lands o.1 (t.place p)) :
    t'.read p = .ok bytes := by
  induction os generalizing t with
  | nil =>
    cases h
    exact held
  | cons o rest ih =>
    obtain ⟨stored, first, later⟩ := storeAll_cons_ok h
    have grown := store_extends first
    refine ih later (grown.read_of_read (apart o List.mem_cons_self) held) fun o' member => ?_
    rw [grown.lands_eq, grown.place_eq]
    exact apart o' (List.mem_cons_of_mem o member)

/-- **The last file written to a place is the one that is read there.** -/
theorem read_of_storeAll {front back : List (Path × ByteArray)} {o : Path × ByteArray}
    (h : t.storeAll (front ++ o :: back) = .ok t')
    (last : ∀ o' ∈ back, ∀ l, t.Lands o.1 l → ¬ t.Lands o'.1 l) : t'.read o.1 = .ok o.2 := by
  induction front generalizing t with
  | nil =>
    obtain ⟨stored, first, later⟩ := storeAll_cons_ok h
    refine read_storeAll later (read_store first) fun o' member => ?_
    rw [(store_extends first).lands_eq, (store_extends first).place_eq]
    exact last o' member _ (lands_of_store first)
  | cons o₀ front ih =>
    obtain ⟨stored, first, later⟩ := storeAll_cons_ok h
    refine ih later fun o' member => ?_
    rw [(store_extends first).lands_eq, (store_extends first).lands_eq]
    exact last o' member

/-- A file is read as it was written, unless a later one goes to its place. -/
theorem read_of_storeAll_of_place {front back : List (Path × ByteArray)} {o : Path × ByteArray}
    (h : t.storeAll (front ++ o :: back) = .ok t')
    (last : ∀ o' ∈ back, t.place o'.1 ≠ t.place o.1) : t'.read o.1 = .ok o.2 := by
  refine read_of_storeAll h fun o' later l here there => last o' later ?_
  rw [← there.place, here.place]

end FileTree

theorem toOption_eq_some_iff {ε α : Type} {r : Except ε α} {a : α} :
    r.toOption = some a ↔ r = .ok a := by
  cases r <;> simp [Except.toOption]

theorem exists_error_of_toOption {ε α : Type} {r : Except ε α} (h : r.toOption = none) :
    ∃ e, r = .error e := by
  cases r with
  | error e => exact ⟨e, rfl⟩
  | ok b => cases h

namespace Build

open FileTree

/-! ### Runs -/

namespace Run

variable {α β : Type} {x : Run α} {f : α → Run β} {t t' t'' : FileTree} {a : α} {b : β}

/-- How a computation ends in a session. -/
def outcome (x : Run α) (session : Session) : Except Halt α × Session := x.run.run session

theorem outcome_bind (x : Run α) (f : α → Run β) (session : Session) :
    (x >>= f).outcome session =
      match x.outcome session with
      | (.ok a, next) => (f a).outcome next
      | (.error halt, next) => (.error halt, next) := by
  simp only [outcome, ExceptT.run_bind, StateT.run_bind]
  rcases x.run.run session with ⟨result, next⟩
  cases result <;> rfl

/-- On the files `t` the computation returns `a` and leaves the files `t'`. -/
def Yields (x : Run α) (t : FileTree) (a : α) (t' : FileTree) : Prop :=
  ∀ session : Session, session.tree = t →
    ∃ next, x.outcome session = (.ok a, next) ∧ next.tree = t'

theorem Yields.pure (t : FileTree) (a : α) : Yields (pure a) t a t :=
  fun session same => ⟨session, rfl, same⟩

theorem Yields.bind (first : Yields x t a t') (second : Yields (f a) t' b t'') :
    Yields (x >>= f) t b t'' := by
  intro session same
  obtain ⟨next, ended, left⟩ := first session same
  obtain ⟨last, ended', left'⟩ := second next left
  exact ⟨last, by rw [outcome_bind, ended]; exact ended', left'⟩

theorem Yields.result_bind {session : Session} {r : Except Halt β} (first : Yields x t a t')
    (same : session.tree = t) (second : ∀ next, next.tree = t' → ((f a).outcome next).1 = r) :
    ((x >>= f).outcome session).1 = r := by
  obtain ⟨next, ended, left⟩ := first session same
  rw [outcome_bind, ended]
  exact second next left

/-- The session that is asked for holds the files. -/
theorem Yields.get {f : Session → Run β} (h : ∀ session : Session, session.tree = t →
    Yields (f session) t b t') : Yields (get >>= f) t b t' :=
  fun session same => h session same session same

theorem Yields.trace (t : FileTree) (level : Int) (message : String) :
    Yields (trace level message) t () t := fun _ same => ⟨_, rfl, same⟩

theorem Yields.failure (t : FileTree) (message : String) : Yields (failure message) t () t :=
  fun _ same => ⟨_, rfl, same⟩

theorem Yields.noted (t : FileTree) (x : Noted α) : Yields (noted x) t x.value t :=
  fun _ same => ⟨_, rfl, same⟩

theorem Yields.lift {ε : Type} {r : Except ε α} (t : FileTree) (wrap : ε → Fault)
    (h : r = .ok a) : Yields (lift wrap r) t a t := by
  subst h
  exact .pure t a

theorem Yields.change {g : FileTree → Except FileError FileTree} (h : g t = .ok t') :
    Yields (change g) t () t' := by
  intro session same
  refine ⟨{ session with tree := t' }, ?_, rfl⟩
  subst same
  rw [Run.change]
  change outcome (Run.lift .file (g session.tree) >>= _) session = _
  rw [h]
  rfl

/-- On the files `t` the computation ends early. -/
def Halts (x : Run α) (t : FileTree) (halt : Halt) : Prop :=
  ∀ session : Session, session.tree = t → (x.outcome session).1 = .error halt

variable {halt : Halt}

theorem Halts.bind (first : Halts x t halt) (f : α → Run β) : Halts (x >>= f) t halt := by
  intro session same
  have ended := first session same
  rw [outcome_bind]
  rcases outcome : x.outcome session with ⟨result, next⟩
  rw [outcome] at ended
  obtain rfl : result = .error halt := ended
  rfl

theorem Yields.halts (first : Yields x t a t') (second : Halts (f a) t' halt) :
    Halts (x >>= f) t halt := by
  intro session same
  exact first.result_bind same second

theorem Halts.get {f : Session → Run β} (h : ∀ session : Session, session.tree = t →
    Halts (f session) t halt) : Halts (get >>= f) t halt :=
  fun session same => h session same session same

theorem Halts.lift {ε : Type} {r : Except ε α} {e : ε} (t : FileTree) (wrap : ε → Fault)
    (h : r = .error e) : Halts (lift wrap r) t (.fault (wrap e)) := by
  subst h
  exact fun _ _ => rfl

theorem Halts.change {g : FileTree → Except FileError FileTree} {e : FileError}
    (h : g t = .error e) : Halts (change g) t (.fault (.file e)) := by
  intro session same
  subst same
  exact Halts.bind (Halts.lift session.tree .file h) _ session rfl

end Run

open Run

/-! ### One source -/

variable (settings : Settings) (s : State) {t t' : FileTree}

/-- What is written for a source that can be read: where, and the declarations of its text. -/
def output? (t : FileTree) (source : Path) : Option (Path × ByteArray) := do
  let text ← t.text? source
  let target ← (targetOf settings s source).toOption
  let declarations := (declarationText (scanOptions settings s) text).value
  return (target, encode (fileText declarations))

variable {settings s} in
theorem output?_eq_some_iff {source : Path} {o : Path × ByteArray} :
    output? settings s t source = some o ↔ ∃ text target, t.text? source = some text ∧
      targetOf settings s source = .ok target ∧
      (target, encode (fileText (declarationText (scanOptions settings s) text).value)) = o := by
  simp only [output?, Option.bind_eq_bind, Option.bind_eq_some_iff, toOption_eq_some_iff,
    Option.pure_def, Option.some.injEq]
  constructor
  · rintro ⟨text, read, target, named, same⟩
    exact ⟨text, target, read, named, same⟩
  · rintro ⟨text, target, read, named, same⟩
    exact ⟨text, read, target, named, same⟩

variable {settings s} in
theorem output?_congr {source : Path} (same : t'.text? source = t.text? source) :
    output? settings s t' source = output? settings s t source := by
  rw [output?, output?, same]

variable {settings s} in
theorem output?_of_unread {source : Path} (unread : t.text? source = none) :
    output? settings s t source = none := by
  rw [output?, unread]
  rfl

theorem extract_value (o : Scan.Options) (t : FileTree) (source : Path) :
    (extract o t source).value =
      (readSource t source).map fun text => (declarationText o text).value := by
  rw [extract]
  cases readSource t source <;> rfl

/-- A source that cannot be read is recorded. -/
theorem generateOne_unread (made : Report) {source : Path} (unread : t.text? source = none) :
    Yields (generateOne settings s made source) t
      { made with failed := made.failed ++ [source] } t := by
  obtain ⟨e, failed⟩ := exists_error_of_toOption unread
  refine .get fun session same => ?_
  refine Yields.bind (.noted t _) ?_
  rw [extract_value, same, failed]
  exact Yields.bind (.failure t _) (.pure t _)

/-- The output of a source that can be read is stored. -/
theorem generateOne_read (made : Report) {source : Path} {o : Path × ByteArray}
    (known : output? settings s t source = some o) (stored : t.store o.1 o.2 = .ok t') :
    Yields (generateOne settings s made source) t
      { made with written := made.written ++ [o.1] } t' := by
  obtain ⟨text, target, read, named, rfl⟩ := output?_eq_some_iff.1 known
  obtain ⟨made', folders, written⟩ := store_ok stored
  refine .get fun session same => ?_
  refine Yields.bind (.noted t _) ?_
  rw [extract_value, same, toOption_eq_some_iff.1 read]
  refine Yields.bind (.lift t _ named) (Yields.bind (.change folders) ?_)
  exact Yields.bind (.change written) (Yields.bind (.trace t' _ _) (.pure t' _))

theorem generateOne_unnamed (made : Report) {source : Path} {text : Text} {e : Path.Error}
    (read : t.text? source = some text) (unnamed : targetOf settings s source = .error e) :
    Halts (generateOne settings s made source) t (.fault (.name e)) := by
  refine .get fun session same => ?_
  refine Yields.halts (.noted t _) ?_
  rw [extract_value, same, toOption_eq_some_iff.1 read]
  exact (Halts.lift t _ unnamed).bind _

theorem generateOne_unstored (made : Report) {source : Path} {o : Path × ByteArray} {e : FileError}
    (known : output? settings s t source = some o) (unstored : t.store o.1 o.2 = .error e) :
    Halts (generateOne settings s made source) t (.fault (.file e)) := by
  obtain ⟨text, target, read, named, rfl⟩ := output?_eq_some_iff.1 known
  refine .get fun session same => ?_
  refine Yields.halts (.noted t _) ?_
  rw [extract_value, same, toOption_eq_some_iff.1 read]
  refine Yields.halts (.lift t _ named) ?_
  rcases store_error unstored with folders | ⟨made', folders, written⟩
  · exact (Halts.change folders).bind _
  · exact Yields.halts (.change folders) ((Halts.change written).bind _)

/-! ### All sources -/

/-- The sources are taken in turn: the output of one that can be read is stored, any other one is
recorded. -/
inductive Generated (settings : Settings) (s : State) :
    FileTree → List Path → List (Path × ByteArray) → List Path → FileTree → Prop
  | done (t : FileTree) : Generated settings s t [] [] [] t
  | failed {t t' : FileTree} {source : Path} {rest ps : List Path} {os : List (Path × ByteArray)}
      (unread : t.text? source = none) (later : Generated settings s t rest os ps t') :
      Generated settings s t (source :: rest) os (source :: ps) t'
  | written {t t' t'' : FileTree} {source : Path} {rest ps : List Path}
      {o : Path × ByteArray} {os : List (Path × ByteArray)}
      (known : output? settings s t source = some o) (stored : t.store o.1 o.2 = .ok t')
      (later : Generated settings s t' rest os ps t'') :
      Generated settings s t (source :: rest) (o :: os) ps t''

variable {settings s} {sources ps : List Path} {os : List (Path × ByteArray)}

theorem Generated.yields (h : Generated settings s t sources os ps t') (before : Report) :
    Yields (generateAll settings s before sources) t
      ⟨before.written ++ os.map Prod.fst, before.failed ++ ps⟩ t' := by
  induction h generalizing before with
  | done t => simpa [generateAll] using Yields.pure t before
  | @failed _ _ source _ _ _ unread _ ih =>
    have later := ih { before with failed := before.failed ++ [source] }
    rw [generateAll]
    refine (generateOne_unread settings s before unread).bind ?_
    simpa using later
  | @written _ _ _ _ _ _ o _ known stored _ ih =>
    have later := ih { before with written := before.written ++ [o.1] }
    rw [generateAll]
    refine (generateOne_read settings s before known stored).bind ?_
    simpa using later

/-- The sources are taken in turn up to one that can be read, but has no target. -/
inductive Refused (settings : Settings) (s : State) : FileTree → List Path → Path.Error → Prop
  | here {t : FileTree} {source : Path} {rest : List Path} {text : Text} {e : Path.Error}
      (read : t.text? source = some text) (unnamed : targetOf settings s source = .error e) :
      Refused settings s t (source :: rest) e
  | failed {t : FileTree} {source : Path} {rest : List Path} {e : Path.Error}
      (unread : t.text? source = none) (later : Refused settings s t rest e) :
      Refused settings s t (source :: rest) e
  | written {t t' : FileTree} {source : Path} {rest : List Path} {o : Path × ByteArray}
      {e : Path.Error} (known : output? settings s t source = some o)
      (stored : t.store o.1 o.2 = .ok t') (later : Refused settings s t' rest e) :
      Refused settings s t (source :: rest) e

theorem Refused.halts {e : Path.Error} (h : Refused settings s t sources e) (before : Report) :
    Halts (generateAll settings s before sources) t (.fault (.name e)) := by
  induction h generalizing before with
  | here read unnamed => exact (generateOne_unnamed settings s before read unnamed).bind _
  | failed unread _ ih => exact (generateOne_unread settings s before unread).halts (ih _)
  | written known stored _ ih => exact (generateOne_read settings s before known stored).halts (ih _)

theorem Refused.exists_source {e : Path.Error} (h : Refused settings s t sources e) :
    ∃ source ∈ sources, targetOf settings s source = .error e := by
  induction h with
  | @here _ source _ _ _ _ unnamed => exact ⟨source, List.mem_cons_self, unnamed⟩
  | failed _ _ ih | written _ _ _ ih =>
    obtain ⟨source, later, unnamed⟩ := ih
    exact ⟨source, .tail _ later, unnamed⟩

/-- **The loop takes all sources**, or ends with a fault of the files or at a source without a
target. -/
theorem generateAll_cases (settings : Settings) (s : State) (before : Report) (t : FileTree)
    (sources : List Path) :
    (∃ os ps t', Generated settings s t sources os ps t') ∨ (∃ e, Refused settings s t sources e) ∨
      ∃ e, Halts (generateAll settings s before sources) t (.fault (.file e)) := by
  induction sources generalizing before t with
  | nil => exact .inl ⟨[], [], t, .done t⟩
  | cons source rest ih =>
    cases read : t.text? source with
    | none =>
      have passed := generateOne_unread settings s before read
      rcases ih { before with failed := before.failed ++ [source] } t with
        ⟨os, ps, t', later⟩ | ⟨e, later⟩ | ⟨e, halts⟩
      · exact .inl ⟨os, source :: ps, t', .failed read later⟩
      · exact .inr (.inl ⟨e, .failed read later⟩)
      · exact .inr (.inr ⟨e, passed.halts halts⟩)
    | some text =>
      cases named : targetOf settings s source with
      | error e => exact .inr (.inl ⟨e, .here read named⟩)
      | ok target =>
        have known := output?_eq_some_iff.2 ⟨text, target, read, named, rfl⟩
        cases stored : t.store target
            (encode (fileText (declarationText (scanOptions settings s) text).value)) with
        | error e =>
          exact .inr (.inr ⟨e, (generateOne_unstored settings s before known stored).bind _⟩)
        | ok t' =>
          have passed := generateOne_read settings s before known stored
          rcases ih { before with written := before.written ++ [target] } t' with
            ⟨os, ps, t'', later⟩ | ⟨e, later⟩ | ⟨e, halts⟩
          · exact .inl ⟨_, ps, t'', .written known stored later⟩
          · exact .inr (.inl ⟨e, .written known stored later⟩)
          · exact .inr (.inr ⟨e, passed.halts halts⟩)

theorem Generated.generate (h : Generated settings s t s.sources os ps t') :
    Yields (generate settings s) t { s with report := some ⟨os.map Prod.fst, ps⟩ } t' := by
  rw [Build.generate]
  exact (Yields.trace t _ _).bind ((h.yields ⟨[], []⟩).bind (.pure t' _))

theorem Generated.unhindered (session : Session)
    (h : Generated settings s session.tree s.sources os ps t') (e : FileError) :
    ((Build.generate settings s).outcome session).1 ≠ .error (.fault (.file e)) := by
  obtain ⟨next, ended, -⟩ := h.generate session rfl
  rw [ended]
  nofun

theorem Refused.generate {e : Path.Error} (h : Refused settings s t s.sources e) :
    Halts (generate settings s) t (.fault (.name e)) := by
  rw [Build.generate]
  exact (Yields.trace t _ _).halts ((h.halts ⟨[], []⟩).bind _)

/-- **The stage takes all sources**, or ends with a fault of the files or at a source without a
target. -/
theorem generate_cases (settings : Settings) (s : State) (t : FileTree) :
    (∃ os ps t', Generated settings s t s.sources os ps t') ∨ (∃ e, Refused settings s t s.sources e) ∨
      ∃ e, Halts (generate settings s) t (.fault (.file e)) := by
  rcases generateAll_cases settings s ⟨[], []⟩ t s.sources with taken | refused | ⟨e, halts⟩
  · exact .inl taken
  · exact .inr (.inl refused)
  · exact .inr (.inr ⟨e, Yields.halts (.trace t _ _) (halts.bind _)⟩)

/-- Where every source has a target, only the files can end the stage early. -/
theorem generate_cases_of_targets
    (targets : ∀ source ∈ s.sources, ∃ target, targetOf settings s source = .ok target)
    (t : FileTree) :
    (∃ os ps t', Generated settings s t s.sources os ps t') ∨
      ∃ e, Halts (generate settings s) t (.fault (.file e)) := by
  rcases generate_cases settings s t with taken | ⟨e, refused⟩ | hindered
  · exact .inl taken
  · obtain ⟨source, member, unnamed⟩ := refused.exists_source
    obtain ⟨target, named⟩ := targets source member
    rw [named] at unnamed
    cases unnamed
  · exact .inr hindered

/-- The outputs are stored in their order. -/
theorem Generated.storeAll (h : Generated settings s t sources os ps t') :
    t.storeAll os = .ok t' := by
  induction h with
  | done t => rfl
  | failed _ _ ih => exact ih
  | written _ stored _ ih =>
    rw [FileTree.storeAll, stored]
    exact ih

/-- Each output goes to the target of a source. -/
theorem Generated.exists_source (h : Generated settings s t sources os ps t') :
    ∀ o ∈ os, ∃ source ∈ sources, targetOf settings s source = .ok o.1 := by
  induction h with
  | done t => nofun
  | failed _ _ ih =>
    intro o member
    obtain ⟨source, later, named⟩ := ih o member
    exact ⟨source, .tail _ later, named⟩
  | @written _ _ _ source _ _ _ _ known _ _ ih =>
    intro o member
    rcases List.mem_cons.1 member with rfl | member
    · obtain ⟨text, target, -, named, rfl⟩ := output?_eq_some_iff.1 known
      exact ⟨source, List.mem_cons_self, named⟩
    · obtain ⟨source', later, named⟩ := ih o member
      exact ⟨source', .tail _ later, named⟩

/-- Each source is written or recorded, and none is both. -/
theorem Generated.length_add (h : Generated settings s t sources os ps t') :
    os.length + ps.length = sources.length := by
  induction h with
  | done t => rfl
  | failed _ _ ih | written _ _ _ ih =>
    simp only [List.length_cons]
    omega

/-! ### Sources apart from the outputs -/

/-- What is written for sources, in their order. -/
def outputs (settings : Settings) (s : State) (t : FileTree) (sources : List Path) :
    List (Path × ByteArray) :=
  sources.filterMap (output? settings s t)

/-- The sources that cannot be read, in their order. -/
def unread (t : FileTree) (sources : List Path) : List Path :=
  sources.filter fun source => (t.text? source).isNone

/-- No source is changed before its turn: new folders do not change where it is, and the output of
an earlier one does not go there. -/
structure Separable (settings : Settings) (s : State) (t : FileTree) (sources : List Path) :
    Prop where
  settled : ∀ source ∈ sources, t.Settled source
  apart : sources.Pairwise fun earlier later =>
    ∀ o ∈ output? settings s t earlier, ¬ t.Lands o.1 (t.place later)

theorem Separable.tail {source : Path} {rest : List Path}
    (h : Separable settings s t (source :: rest)) : Separable settings s t rest where
  settled source' member := h.settled source' (List.mem_cons_of_mem source member)
  apart := (List.pairwise_cons.1 h.apart).2

/-- Storing the output of a source leaves the sources behind it as they are. -/
theorem Separable.text?_after {source : Path} {rest : List Path} {o : Path × ByteArray}
    (h : Separable settings s t (source :: rest)) (sound : t.Sound)
    (known : output? settings s t source = some o) (stored : t.store o.1 o.2 = .ok t') :
    ∀ later ∈ rest, t'.text? later = t.text? later := by
  intro later member
  refine (store_extends stored).text?_eq sound (h.settled later (List.mem_cons_of_mem _ member)) ?_
  exact (List.pairwise_cons.1 h.apart).1 later member o known

theorem Separable.of_stored {source : Path} {rest : List Path} {o : Path × ByteArray}
    (h : Separable settings s t (source :: rest)) (sound : t.Sound)
    (known : output? settings s t source = some o) (stored : t.store o.1 o.2 = .ok t') :
    Separable settings s t' rest := by
  have grown := store_extends stored
  have same := h.text?_after sound known stored
  refine ⟨fun later member => grown.settled (h.tail.settled later member), ?_⟩
  refine h.tail.apart.imp_of_mem fun {a b} member _ apart o' known' => ?_
  rw [output?_congr (same a member)] at known'
  rw [grown.lands_eq, grown.place_eq]
  exact apart o' known'

/-- **What is written is known beforehand**, and so is what is recorded. -/
theorem Generated.separable (h : Generated settings s t sources os ps t') (sound : t.Sound)
    (separable : Separable settings s t sources) :
    os = outputs settings s t sources ∧ ps = unread t sources := by
  induction h with
  | done t => exact ⟨rfl, rfl⟩
  | failed unreadable _ ih =>
    obtain ⟨written, failed⟩ := ih sound separable.tail
    rw [outputs, List.filterMap_cons_none (output?_of_unread unreadable), unread,
      List.filter_cons_of_pos (by rw [unreadable]; rfl)]
    exact ⟨written, congrArg _ failed⟩
  | @written t t₁ _ source rest _ o _ known here _ ih =>
    have same := separable.text?_after sound known here
    have outputs_eq : outputs settings s t₁ rest = outputs settings s t rest :=
      List.filterMap_congr fun source' member => output?_congr (same source' member)
    have unread_eq : unread t₁ rest = unread t rest :=
      List.filter_congr fun source' member => by rw [same source' member]
    obtain ⟨written, failed⟩ :=
      ih ((store_extends here).sound sound) (separable.of_stored sound known here)
    rw [outputs_eq] at written
    rw [unread_eq] at failed
    obtain ⟨text, target, read, -⟩ := output?_eq_some_iff.1 known
    rw [outputs, List.filterMap_cons_some known, unread,
      List.filter_cons_of_neg (by rw [read]; simp)]
    exact ⟨congrArg _ written, failed⟩

/-! ### The report -/

theorem complaints_yield (t : FileTree) (message : Path → String) (ps : List Path) :
    Yields (forIn ps PUnit.unit fun p _ => do
      complain (message p)
      return .yield PUnit.unit) t PUnit.unit t := by
  induction ps with
  | nil => exact .pure t _
  | cons p ps ih =>
    have first : Yields (complain (message p)) t () t := fun _ same => ⟨_, rfl, same⟩
    have here : Yields (do complain (message p); return ForInStep.yield PUnit.unit) t
        (.yield PUnit.unit) t := first.bind (.pure t _)
    rw [List.forIn_cons]
    exact here.bind ih

/-- What the report ends with: the state, or a failure if some source could not be read. -/
theorem verdict_result (s : State) (made : Report) (message : Path → String) (session : Session) :
    ((if made.status = true then pure s
      else do
        forIn made.failed PUnit.unit fun p _ => do
          complain (message p)
          return .yield PUnit.unit
        throw (.exit 1) : Run State).outcome session).1 =
      if made.failed = [] then .ok s else .error (.exit 1) := by
  have status : made.status = true ↔ made.failed = [] := List.isEmpty_iff
  by_cases failed : made.failed = []
  · rw [if_pos (status.2 failed), if_pos failed]
    rfl
  · rw [if_neg (mt status.1 failed), if_neg failed]
    exact (complaints_yield _ message made.failed).result_bind rfl fun _ _ => rfl

theorem report_result {made : Report} (h : s.report = some made) (session : Session) :
    ((report s).outcome session).1 =
      if made.failed = [] then .ok s else .error (.exit 1) := by
  rw [report, h]
  simp only
  split
  · refine (Yields.trace _ _ _).result_bind rfl fun _ _ => ?_
    refine (Yields.trace _ _ _).result_bind rfl fun last _ => ?_
    exact verdict_result s made _ last
  · exact verdict_result s made _ session

end Build

end Ambient
