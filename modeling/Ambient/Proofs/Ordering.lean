import Ambient.Glob
import Mathlib.Data.List.Nodup

/-!
The order of paths. Sorted paths with one anchor ascend strictly (`ascending_sortPaths`), and a list
that ascends is known from its members (`eq_of_ascending`).
-/

namespace Ambient

/-- A strict order that decides between any two different values. -/
structure Orders {α : Type} (before : α → α → Bool) : Prop where
  trans : ∀ a b c, before a b = true → before b c = true → before a c = true
  flip : ∀ a b, a ≠ b → before b a = !before a b

namespace Path

section
variable {α : Type} [DecidableEq α] {before : α → α → Bool}

theorem lexBefore_self (as : List α) : lexBefore before as as = false := by
  induction as with
  | nil => rfl
  | cons a as ih => simpa [lexBefore] using ih

theorem lexBefore_trans (h : Orders before) {as bs cs : List α}
    (first : lexBefore before as bs = true) (second : lexBefore before bs cs = true) :
    lexBefore before as cs = true := by
  induction as generalizing bs cs with
  | nil =>
    cases cs with
    | nil => cases bs <;> cases second
    | cons c cs => rfl
  | cons a as ih =>
    cases bs with
    | nil => cases first
    | cons b bs =>
      cases cs with
      | nil => cases second
      | cons c cs =>
        rw [lexBefore] at first second ⊢
        by_cases ab : a = b
        · subst ab
          rw [if_pos rfl] at first
          split at second
          · next same => rw [if_pos same]; exact ih first second
          · next apart => rw [if_neg apart]; exact second
        · rw [if_neg ab] at first
          by_cases bc : b = c
          · subst bc
            rwa [if_neg ab]
          · rw [if_neg bc] at second
            have ac : a ≠ c := by
              rintro rfl
              rw [h.flip _ _ ab, first] at second
              cases second
            rw [if_neg ac]
            exact h.trans a b c first second

theorem lexBefore_flip (h : Orders before) {as bs : List α} (different : as ≠ bs) :
    lexBefore before bs as = !lexBefore before as bs := by
  induction as generalizing bs with
  | nil =>
    cases bs with
    | nil => exact absurd rfl different
    | cons b bs => rfl
  | cons a as ih =>
    cases bs with
    | nil => rfl
    | cons b bs =>
      rw [lexBefore, lexBefore]
      by_cases ab : a = b
      · subst ab
        rw [if_pos rfl, if_pos rfl]
        exact ih fun same => different (congrArg _ same)
      · rw [if_neg ab, if_neg (Ne.symm ab)]
        exact h.flip a b ab

theorem orders_lexBefore (h : Orders before) : Orders (lexBefore before) :=
  ⟨fun _ _ _ => lexBefore_trans h, fun _ _ => lexBefore_flip h⟩

end

theorem orders_textBefore : Orders textBefore := by
  refine orders_lexBefore ⟨fun a b c first second => ?_, fun a b different => ?_⟩
  · simp only [decide_eq_true_eq] at first second ⊢
    omega
  · have apart : a.toNat ≠ b.toNat := fun same => different (Char.toNat_inj.1 same)
    by_cases less : a.toNat < b.toNat
    · simp [less, Nat.le_of_lt less]
    · have more : b.toNat < a.toNat := by omega
      simp [more, less]

/-- The path comes first. -/
def Before (p q : Path) : Prop := lexBefore textBefore p.key q.key = true

theorem orders_key : Orders (lexBefore textBefore) := orders_lexBefore orders_textBefore

theorem le_trans {p q r : Path} (first : p.le q = true) (second : q.le r = true) :
    p.le r = true := by
  simp only [le, Bool.not_eq_true'] at first second ⊢
  by_contra after
  rw [Bool.not_eq_false] at after
  by_cases same : p.key = q.key
  · rw [same, second] at after
    cases after
  · have before : lexBefore textBefore p.key q.key = true := by
      simpa [first] using orders_key.flip _ _ (Ne.symm same)
    rw [orders_key.trans _ _ _ after before] at second
    cases second

theorem le_total (p q : Path) : (p.le q || q.le p) = true := by
  by_cases same : p.key = q.key
  · simp [le, same, lexBefore_self]
  · simp [le, orders_key.flip _ _ same]

theorem eq_of_key {p q : Path} (anchor : p.anchor = q.anchor) (same : p.key = q.key) : p = q := by
  obtain ⟨a, ps⟩ := p
  obtain ⟨b, qs⟩ := q
  obtain rfl : a = b := anchor
  rw [key, key] at same
  split at same
  · rw [show ps = qs from same]
  · rw [show ps = qs from (List.cons.inj same).2]

theorem before_of_le {p q : Path} (anchor : p.anchor = q.anchor) (le : p.le q = true)
    (different : p ≠ q) : p.Before q := by
  have apart : q.key ≠ p.key := fun same => different (eq_of_key anchor same.symm)
  rw [Before, orders_key.flip _ _ apart]
  exact le

theorem Before.irrefl (p : Path) : ¬ p.Before p := by
  rw [Before, lexBefore_self]
  exact Bool.false_ne_true

/-- Ascending lists with the same paths are the same. -/
theorem eq_of_ascending {ps qs : List Path} (first : ps.Pairwise Before)
    (second : qs.Pairwise Before) (same : ∀ p, p ∈ ps ↔ p ∈ qs) : ps = qs := by
  have nodup {rs : List Path} (ascending : rs.Pairwise Before) : rs.Nodup := by
    refine ascending.imp fun {p q} before => ?_
    rintro rfl
    exact Before.irrefl p before
  have perm : ps.Perm qs :=
    (List.perm_ext_iff_of_nodup (nodup first) (nodup second)).2 same
  refine perm.eq_of_pairwise (fun p q _ _ before after => ?_) first second
  exact absurd (orders_key.trans _ _ _ before after) (Before.irrefl p)

end Path

/-! ### Sorting -/

theorem nodup_eraseDups {α : Type} [BEq α] [LawfulBEq α] (as : List α) : as.eraseDups.Nodup := by
  induction h : as.length using Nat.strongRecOn generalizing as with
  | ind n ih =>
    cases as with
    | nil => simp
    | cons a as =>
      rw [List.eraseDups_cons, List.nodup_cons]
      have fewer : (as.filter fun b => !b == a).length < n := by
        have := List.length_filter_le (fun b => !b == a) as
        rw [List.length_cons] at h
        omega
      exact ⟨by simp [List.mem_eraseDups], ih _ fewer _ rfl⟩

theorem mem_sortPaths {ps : List Path} {p : Path} : p ∈ sortPaths ps ↔ p ∈ ps := by
  rw [sortPaths, List.mem_mergeSort, List.mem_eraseDups]

theorem nodup_sortPaths (ps : List Path) : (sortPaths ps).Nodup :=
  (List.mergeSort_perm _ _).nodup_iff.2 (nodup_eraseDups ps)

theorem pairwise_le_sortPaths (ps : List Path) : (sortPaths ps).Pairwise (Path.le · ·) :=
  @List.pairwise_mergeSort Path Path.le (fun _ _ _ => Path.le_trans) Path.le_total ps.eraseDups

/-- Sorted paths of one anchor ascend strictly. -/
theorem ascending_sortPaths {ps : List Path} {anchor : Text}
    (anchored : ∀ p ∈ ps, p.anchor = anchor) : (sortPaths ps).Pairwise Path.Before := by
  refine ((pairwise_le_sortPaths ps).and (nodup_sortPaths ps)).imp_of_mem
    fun {p q} inP inQ known => ?_
  have same : p.anchor = q.anchor :=
    (anchored p (mem_sortPaths.1 inP)).trans (anchored q (mem_sortPaths.1 inQ)).symm
  exact Path.before_of_le same known.1 known.2

/-- What ascends is sorted already. -/
theorem sortPaths_of_ascending {ps : List Path} {anchor : Text}
    (anchored : ∀ p ∈ ps, p.anchor = anchor) (ascends : ps.Pairwise Path.Before) :
    sortPaths ps = ps :=
  Path.eq_of_ascending (ascending_sortPaths anchored) ascends fun _ => mem_sortPaths

end Ambient
